import Thvm.WorkerPoolRefinement

/-!
# Quiescence of a parallel drain

When `wnf_pool_drain_parallel` returns, every bag is empty, nobody holds a task and
every task pushed so far has been fired once. A worker leaves its loop only when
nobody can push any more. The fire limit and the indices of the bags are 64 bits
wide, which bounds the number of pushes that this holds for.
-/

namespace Thvm.WorkerPool
open WorkStealingDeque TerminationDetection FixedWidth
open TransitionRuns (Run)

variable {n : ℕ} [NeZero n] {es : List (Event (Fin n) Task)} {s : Pool n}

omit [NeZero n] in
theorem card_fired_le (es : List (Event (Fin n) Task)) (e : Event (Fin n) Task) :
    Multiset.card (fired es) ≤ Multiset.card (fired (es ++ [e])) := by
  rw [fired_snoc, Multiset.card_add]
  exact Nat.le_add_right _ _

omit [NeZero n] in
theorem pushesOn_le (v : Fin n) (es : List (Event (Fin n) Task)) (e : Event (Fin n) Task) :
    pushesOn v es ≤ pushesOn v (es ++ [e]) := by
  rw [pushesOn_snoc]
  exact Nat.le_add_right _ _

/-- A step of one worker outside its operations on deques. -/
theorem Sound.move (h : Sound es s) {w : Fin n} {pc : WorkerPc n} {s' : Pool n}
    {e : Event (Fin n) Task} (hbag : s'.bag = s.bag) (hpc : s'.pc = Function.update s.pc w pc)
    (hnone : access w (s.pc w) = none) (hdriver : pc.driverOnly → w = 0)
    (hparked : pc = .parked → w ≠ 0) (hstarting : s'.pc 0 = .starting → s'.alive = n)
    (hseen : ∀ u, u ≠ 0 → s'.pc u ≠ .parked → s'.workerSeenGen u = s'.drainGen)
    (hcounted : ∀ f, pc.counted = some f → n = 1 ∧ f ≤ Multiset.card (fired (es ++ [e]))) :
    Sound (es ++ [e]) s' := by
  have hself : s'.pc w = pc := by rw [hpc, Function.update_self]
  have hother : ∀ u, u ≠ w → s'.pc u = s.pc u := fun u hu => by rw [hpc, Function.update_of_ne hu]
  refine ⟨fun v => ?_, fun v => ?_, fun u hu => ?_, ?_, hstarting, hseen, fun u f hu => ?_⟩
  · rw [hbag]
    exact ⟨(h.bag v).1, (h.bag v).2.trans (pushesOn_le v es e)⟩
  · rw [hbag]
    refine (h.serves v).imp_right ?_
    rintro ⟨u, op, hu, hop⟩
    have huw : u ≠ w := by
      rintro rfl
      rw [hnone] at hu
      cases hu
    exact ⟨u, op, hother u huw ▸ hu, hop⟩
  · by_cases huw : u = w
    · subst huw
      exact hdriver (hself ▸ hu)
    · exact h.driver u (hother u huw ▸ hu)
  · by_cases hw : 0 = w
    · subst hw
      rw [hself]
      exact fun hp => hparked hp rfl
    · rw [hother 0 hw]
      exact h.awake
  · by_cases huw : u = w
    · subst huw
      exact hcounted f (hself ▸ hu)
    · obtain ⟨hone, hle⟩ := h.counted u f (hother u huw ▸ hu)
      exact ⟨hone, hle.trans (card_fired_le es e)⟩

theorem Sound.seen_goto (h : Sound es s) {w : Fin n} {pc : WorkerPc n} (hpc : s.pc w ≠ .parked)
    (u : Fin n) (hu : u ≠ 0) (hawake : (s.goto w pc).pc u ≠ .parked) :
    s.workerSeenGen u = s.drainGen := by
  by_cases huw : u = w
  · subst huw
    exact h.seen u hu hpc
  · simp only [Pool.goto, Function.update_of_ne huw] at hawake
    exact h.seen u hu hawake

theorem starting_goto {w : Fin n} {pc : WorkerPc n} (hpc : pc ≠ .starting)
    (hstart : (s.goto w pc).pc 0 = .starting) : s.pc 0 = .starting := by
  by_cases hw : 0 = w
  · subst hw
    simp only [Pool.goto, Function.update_self] at hstart
    exact absurd hstart hpc
  · simpa only [Pool.goto, Function.update_of_ne hw] using hstart

omit [NeZero n] in
/-- The return of an operation on a deque leads to no position of a new kind. -/
theorem proceed_kind (pc : WorkerPc n) (r : Option (Reply Task)) :
    ((proceed pc r).driverOnly → pc.driverOnly) ∧ (proceed pc r = .parked → pc = .parked) ∧
      (proceed pc r = .starting → pc = .starting) ∧
      ∀ f, (proceed pc r).counted = some f → pc.counted = some f := by
  cases r with
  | none => exact ⟨id, id, id, fun _ => id⟩
  | some r =>
    cases pc with
    | popping l | pushing l =>
      cases l <;> cases r <;> simp [proceed, resume, WorkerPc.driverOnly, WorkerPc.counted]
    | seeding | stealing =>
      cases r <;> simp [proceed, resume, WorkerPc.driverOnly, WorkerPc.counted]
    | _ => exact ⟨id, id, id, fun _ => id⟩

omit [NeZero n] in
theorem pushed_le_pushesOn (v : Fin n) (pc : WorkerPc n)
    (l : WorkStealingDeque.Label (Fin n) Task) :
    (SequentialDeque.pushed l.event.toList).length ≤ pushesOn v [shown v pc l] := by
  obtain ⟨actor, call, ev, rep⟩ := l
  rcases ev with _ | e
  · exact Nat.zero_le _
  · cases e <;> simp [SequentialDeque.pushedBy, pushesOn, shown]

/-- Whoever is inside an owner's operation after the step was so before, or is the
worker that took the step. -/
theorem serves_access (h : Sound es s) (hinv : TerminationDetection.Inv 0 es s.net)
    {w v : Fin n} {op : Op Task} {l : WorkStealingDeque.Label (Fin n) Task}
    {b' : WorkStealingDeque.State (Fin n) Task} (hw : access w (s.pc w) = some (v, l.actor, op))
    (hcall : l.call = none ∨ l.call = some op) (hstep : WorkStealingDeque.Step (s.bag v) l b')
    (hroom : ∀ x, l.event = some (.push x) → (s.bag v).q.bot + 1 < 2 ^ 64) (u : Fin n) :
    ownerOp (Function.update s.bag v b' u).owner = none ∨
      ∃ w' op', access w' ((s.goto w (proceed (s.pc w) l.reply)).pc w') = some (u, .owner, op') ∧
        ownerOp (Function.update s.bag v b' u).owner = some op' := by
  have hkeep : ∀ w' op', w' ≠ w → access w' (s.pc w') = some (u, .owner, op') →
      access w' ((s.goto w (proceed (s.pc w) l.reply)).pc w') = some (u, .owner, op') := by
    intro w' op' hne hw'
    simpa only [Pool.goto, Function.update_of_ne hne] using hw'
  by_cases huv : u = v
  · subst huv
    rw [Function.update_self]
    cases hactor : l.actor with
    | owner =>
      rw [hactor] at hw
      rw [(h.owner_shows hinv hactor hw hcall hstep hroom).2]
      cases hr : l.reply with
      | none =>
        refine .inr ⟨w, op, ?_, rfl⟩
        simpa only [Pool.goto, Function.update_self, proceed] using hw
      | some r => exact .inl rfl
    | thief i =>
      rw [(thiefShows (h.bag u).1 hstep hactor).2]
      refine (h.serves u).imp_right ?_
      rintro ⟨w', op', hw', hop⟩
      refine ⟨w', op', hkeep w' op' ?_ hw', hop⟩
      rintro rfl
      rw [hw, hactor] at hw'
      simp at hw'
  · rw [Function.update_of_ne huv]
    refine (h.serves u).imp_right ?_
    rintro ⟨w', op', hw', hop⟩
    refine ⟨w', op', hkeep w' op' ?_ hw', hop⟩
    rintro rfl
    rw [hw] at hw'
    simp only [Option.some.injEq, Prod.mk.injEq] at hw'
    exact huv hw'.1.symm

theorem sound_access (h : Sound es s) (hinv : TerminationDetection.Inv 0 es s.net)
    {w v : Fin n} {op : Op Task} {l : WorkStealingDeque.Label (Fin n) Task}
    {b' : WorkStealingDeque.State (Fin n) Task} (hw : access w (s.pc w) = some (v, l.actor, op))
    (hcall : l.call = none ∨ l.call = some op) (hstep : WorkStealingDeque.Step (s.bag v) l b')
    (hfew : pushesOn v (es ++ [shown v (s.pc w) l]) < 2 ^ 64) :
    Sound (es ++ [shown v (s.pc w) l]) ({ s.goto w (proceed (s.pc w) l.reply) with
      bag := Function.update s.bag v b' } : Pool n) := by
  obtain ⟨hdriver, hparked, hstarting, hcounted⟩ := proceed_kind (s.pc w) l.reply
  have hpc : ∀ u, u ≠ w → (s.goto w (proceed (s.pc w) l.reply)).pc u = s.pc u :=
    fun u hu => Function.update_of_ne hu _ _
  have hself : (s.goto w (proceed (s.pc w) l.reply)).pc w = proceed (s.pc w) l.reply :=
    Function.update_self _ _ _
  refine ⟨fun u => ?_, fun u => ?_, fun u hu => ?_, ?_, fun hu => ?_, fun u hu hne => ?_,
    fun u f hu => ?_⟩
  · by_cases huv : u = v
    · subst huv
      simp only [Function.update_self]
      obtain ⟨hbag, hbottom⟩ := h.bag u
      refine ⟨(inv_step hbag hstep (h.room hfew)).1, (bottom_step hbag hstep).trans ?_⟩
      rw [pushesOn_snoc]
      exact Nat.add_le_add hbottom (pushed_le_pushesOn u _ l)
    · simp only [Function.update_of_ne huv]
      exact ⟨(h.bag u).1, (h.bag u).2.trans (pushesOn_le u es _)⟩
  · exact serves_access h hinv hw hcall hstep (h.room hfew) u
  · by_cases huw : u = w
    · subst huw
      exact h.driver u (hdriver (hself ▸ hu))
    · exact h.driver u (hpc u huw ▸ hu)
  · by_cases hzero : 0 = w
    · subst hzero
      exact fun hp => h.awake (hparked (hself ▸ hp))
    · exact fun hp => h.awake (hpc 0 hzero ▸ hp)
  · by_cases hzero : 0 = w
    · subst hzero
      exact h.starting (hstarting (hself ▸ hu))
    · exact h.starting (hpc 0 hzero ▸ hu)
  · by_cases huw : u = w
    · subst huw
      refine h.seen u hu fun hp => ?_
      rw [hp] at hw
      cases hw
    · exact h.seen u hu (hpc u huw ▸ hne)
  · have hle := card_fired_le es (shown v (s.pc w) l)
    by_cases huw : u = w
    · subst huw
      obtain ⟨hone, hf⟩ := h.counted u f (hcounted f (hself ▸ hu))
      exact ⟨hone, hf.trans hle⟩
    · obtain ⟨hone, hf⟩ := h.counted u f (hpc u huw ▸ hu)
      exact ⟨hone, hf.trans hle⟩

theorem Sound.goto (h : Sound es s) {w : Fin n} {pc : WorkerPc n} {e : Event (Fin n) Task}
    (hold : s.pc w ≠ .parked) (hnone : access w (s.pc w) = none) (hparked : pc ≠ .parked)
    (hstart : pc ≠ .starting) (hdriver : pc.driverOnly → w = 0)
    (hcounted : ∀ f, pc.counted = some f → n = 1 ∧ f ≤ Multiset.card (fired (es ++ [e]))) :
    Sound (es ++ [e]) (s.goto w pc) :=
  h.move rfl rfl hnone hdriver (fun hp => absurd hp hparked)
    (fun hs => h.starting (starting_goto hstart hs)) (h.seen_goto hold) hcounted

/-- A step to a position of the worker loop, which may change the counters of the drain. -/
theorem Sound.inLoop (h : Sound es s) (hinv : TerminationDetection.Inv 0 es s.net) {w : Fin n}
    {pc : WorkerPc n} {e : Event (Fin n) Task} {alive pending : ℕ}
    (hold : s.net.status w ≠ .out ∧ s.net.status w ≠ .done) (hpark : s.pc w ≠ .parked)
    (hnone : access w (s.pc w) = none) (hstart : pc ≠ .starting) (hparked : pc = .parked → w ≠ 0)
    (hdriver : pc.driverOnly → w = 0) (hcounted : pc.counted = none) :
    Sound (es ++ [e]) { s.goto w pc with alive := alive, pending := pending } := by
  have hrun := hinv.running hold.1 hold.2
  refine h.move rfl rfl hnone hdriver hparked (fun hs => absurd (starting_goto hstart hs) ?_)
    (h.seen_goto hpark) (by simp [hcounted])
  intro hs
  exact hrun (net_status hs)

theorem sound_step {s' : Pool n} {e : Event (Fin n) Task} (h : Sound es s)
    (hinv : TerminationDetection.Inv 0 es s.net) (hs : Step s e s')
    (hfew : ∀ v, pushesOn v (es ++ [e]) < 2 ^ 64) : Sound (es ++ [e]) s' := by
  cases hs with
  | access at_op call step => exact sound_access h hinv at_op call step (hfew _)
  | seed at_pc task =>
    exact h.goto (by simp [at_pc]) (by rw [at_pc]; rfl) (by simp) (by simp) (fun _ => rfl)
      (by simp [WorkerPc.counted])
  | drainAlone at_pc single =>
    refine h.goto (by simp [at_pc]) (by rw [at_pc]; rfl) (by simp) (by simp) (fun _ => rfl) ?_
    rintro f ⟨⟩
    exact ⟨single, Nat.zero_le _⟩
  | announce at_pc several =>
    exact h.move rfl rfl (by rw [at_pc]; rfl) (fun _ => rfl) (by simp) (fun _ => rfl)
      (h.seen_goto (by simp [at_pc])) (by simp [WorkerPc.counted])
  | broadcast at_pc =>
    refine h.move rfl rfl (by rw [at_pc]; rfl) (by simp [WorkerPc.driverOnly]) (by simp)
      (by simp [Pool.goto]) (fun u hu hne => ?_) (by simp [WorkerPc.counted])
    simp only [Pool.goto, Function.update_of_ne hu] at hne
    exact absurd (h.parked_of_out hinv (net_status at_pc) hu).1 hne
  | finish at_pc none =>
    exact h.goto (by simp [at_pc]) (by rw [at_pc]; rfl) (by simp) (by simp) (fun _ => rfl)
      (by simp [WorkerPc.counted])
  | @wake w at_pc signal =>
    refine h.move rfl rfl (by rw [at_pc]; rfl) (by simp [WorkerPc.driverOnly]) (by simp)
      (fun hs => h.starting (starting_goto (by simp) hs)) (fun u hu hne => ?_)
      (by simp [WorkerPc.counted])
    by_cases huw : u = w
    · subst huw
      exact Function.update_self _ _ _
    · simp only [Pool.goto, Function.update_of_ne huw] at hne ⊢
      exact h.seen u hu hne
  | @retire w at_pc =>
    refine h.inLoop hinv ?_ (by simp [at_pc]) (by rw [at_pc]; rfl) ?_ ?_ ?_ ?_
    · simp [net_status at_pc, statusAt]
    · split <;> simp
    · split <;> simp [*]
    · split <;> simp [*, WorkerPc.driverOnly]
    · split <;> rfl
  | drainCheck at_pc more =>
    refine h.goto (by simp [at_pc]) (by rw [at_pc]; rfl) (by simp) (by simp)
      (fun _ => h.driver _ (by rw [at_pc]; rfl)) ?_
    rintro f ⟨⟩
    obtain ⟨hone, hle⟩ := h.counted _ _ (by rw [at_pc]; rfl)
    exact ⟨hone, hle.trans (card_fired_le es _)⟩
  | drainLimit at_pc limit =>
    exact h.goto (by simp [at_pc]) (by rw [at_pc]; rfl) (by simp) (by simp)
      (fun _ => h.driver _ (by rw [at_pc]; rfl)) (by simp [WorkerPc.counted])
  | @firePush w l r t at_pc task =>
    refine h.goto (by simp [at_pc]) (by rw [at_pc]; rfl) (by simp) (by simp)
      (fun hd => h.driver w ?_) fun f hf => ?_
    · rw [at_pc]
      cases l <;> exact hd
    · obtain ⟨hone, hle⟩ := h.counted w f (by rw [at_pc]; cases l <;> exact hf)
      exact ⟨hone, hle.trans (card_fired_le es _)⟩
  | @fired w l r at_pc =>
    refine h.goto (by simp [at_pc]) (by rw [at_pc]; rfl) (by cases l <;> simp [afterFire])
      (by cases l <;> simp [afterFire]) (fun hd => h.driver w ?_) fun f hf => ?_
    · rw [at_pc]
      cases l <;> simp [afterFire, WorkerPc.driverOnly] at hd ⊢
    · cases l with
      | workerLoop k => cases hf
      | drainLocal k =>
        obtain ⟨hone, hle⟩ := h.counted w k (by rw [at_pc]; rfl)
        obtain rfl : inc64 k = f := by simpa [afterFire, WorkerPc.counted] using hf
        refine ⟨hone, (inc64_le k).trans ?_⟩
        rw [fired_snoc, Multiset.card_add]
        exact Nat.add_le_add_right hle 1
  | hunt at_pc | scan at_pc | scanBot at_pc | checkAlive at_pc =>
    refine h.goto (by simp [at_pc]) (by rw [at_pc]; rfl) ?_ ?_ ?_ ?_ <;> repeat' split
    all_goals simp [WorkerPc.driverOnly, WorkerPc.counted]
  | goIdle at_pc =>
    refine h.inLoop hinv ?_ (by simp [at_pc]) (by rw [at_pc]; rfl) ?_ ?_ ?_ ?_
    · simp [net_status at_pc, statusAt]
    all_goals split <;> simp [WorkerPc.driverOnly, WorkerPc.counted]
  | reawake at_pc =>
    refine h.inLoop hinv ?_ (by simp [at_pc]) (by rw [at_pc]; rfl) (by simp) (by simp)
      (by simp [WorkerPc.driverOnly]) rfl
    simp [net_status at_pc, statusAt]

/-- Every bag is empty and no worker has a task in its hands. -/
def Pool.Quiet (s : Pool n) : Prop :=
  ∀ w, content (s.bag w).q (s.bag w).owner = [] ∧ inFlight (s.bag w).owner = 0 ∧
    holding (s.pc w) = 0

/-- Some position of the calling thread inside a drain of several workers. -/
def Pool.Draining (s : Pool n) : Prop := (s.pc 0).driverOnly = false ∨ s.pc 0 = .waiting

/-- Worker `w` is out of its loop, and the drain goes on. -/
def Pool.LeftLoop (s : Pool n) (w : Fin n) : Prop :=
  s.pc w = .left ∨ s.pc w = .waiting ∨
    s.pc w = .parked ∧ s.workerSeenGen w = s.drainGen ∧ s.Draining

omit [NeZero n] in
theorem quiet_of_net (h : s.net.Quiet) : s.Quiet := by
  intro w
  obtain ⟨hload, hhand⟩ := h w
  obtain ⟨hflight, hhold⟩ := add_eq_zero.mp hhand
  exact ⟨Multiset.coe_eq_zero _ |>.mp hload, hflight, hhold⟩

omit [NeZero n] in
theorem status_out (b : Bool) (pc : WorkerPc n) (h : statusAt b pc = .out) :
    pc.driverOnly ∧ pc ≠ .waiting := by
  cases pc with
  | popping l | firing l | pushing l =>
    cases l <;> simp_all [statusAt, Loop.status, WorkerPc.driverOnly]
  | parked => cases b <;> simp [statusAt] at h
  | _ => simp_all [statusAt, WorkerPc.driverOnly]

theorem net_draining (h : s.Draining) : s.net.status 0 ≠ .out := by
  intro hout
  obtain ⟨hdriver, hwaiting⟩ := status_out _ _ hout
  rcases h with h | h
  · exact Bool.noConfusion (h.symm.trans hdriver)
  · exact hwaiting h

omit [NeZero n] in
theorem inv_of_empty [NeZero n] {net : Net (Fin n) Task}
    (hstatus : ∀ w, net.status w = if w = 0 then .out else .done) (hquiet : net.Quiet) :
    TerminationDetection.Inv 0 [] net := by
  have hout : net.status 0 = .out := hstatus 0
  refine ⟨?_, fun w hw => ?_, fun _ w hw => by rw [hstatus, if_neg hw], fun h => absurd hout h,
    fun h => absurd hout h, fun h => absurd hout h, fun h => absurd hout h⟩
  · rw [Finset.sum_eq_zero fun w _ => (hquiet w).1, Finset.sum_eq_zero fun w _ => (hquiet w).2]
    rfl
  · by_contra hne
    rw [hstatus, if_neg hne] at hw
    cases hw

theorem sound_init {buf : Fin n → ℕ → Task} {s₀ : Pool n} (h : wnfPoolInit n buf = some s₀) :
    n ≤ maxThreads ∧ Sound [] s₀ ∧ TerminationDetection.Inv 0 [] s₀.net := by
  unfold wnfPoolInit at h
  split at h
  · cases h
  · rename_i hn
    obtain rfl := Option.some.inj h
    refine ⟨not_lt.mp hn, ⟨fun v => ⟨inv_init _ _, le_rfl⟩, fun v => .inl rfl, fun w hw => ?_, ?_,
      ?_, fun w _ _ => rfl, fun w f hf => ?_⟩, inv_of_empty (fun w => ?_) fun w => ?_⟩
    · by_contra hne
      simp [hne, WorkerPc.driverOnly] at hw
    · simp
    · simp
    · by_cases hzero : w = 0 <;> simp [hzero, WorkerPc.counted] at hf
    · by_cases hzero : w = 0 <;> simp [hzero, Pool.net, Pool.signal, statusAt]
    · by_cases hzero : w = 0 <;> exact ⟨rfl, by simp [hzero, Pool.net, holding, inFlight,
        WorkStealingDeque.init]⟩

/-- The run lemma: the pool refines the abstract round along every run. -/
theorem pool_refines {buf : Fin n → ℕ → Task} {s₀ : Pool n} (hinit : wnfPoolInit n buf = some s₀)
    (hrun : Run Step s₀ es s) (hfew : ∀ v, pushesOn v es < 2 ^ 64) :
    Sound es s ∧ Run (Move 0) s₀.net es s.net := by
  obtain ⟨hn, hsound, hinv⟩ := sound_init hinit
  refine hrun.invariant_while (I := fun es s => Sound es s ∧ Run (Move 0) s₀.net es s.net)
    (C := fun es => ∀ v, pushesOn v es < 2 ^ 64) (fun es e hc v => ?_) ⟨hsound, .refl⟩ ?_ hfew
  · exact (pushesOn_le v es e).trans_lt (hc v)
  · intro es s e s' ⟨hsound, hmoves⟩ hc hs
    have hinv' := inv_run hinv hmoves
    exact ⟨sound_step hsound hinv' hs hc, hmoves.snoc (move_step hsound hinv' hn hs hc)⟩

/-! A pool with a single worker, one step after another. -/

/-- The state of a pool with one worker. -/
def solo (b : WorkStealingDeque.State (Fin 1) Task) (pc : WorkerPc 1) : Pool 1 :=
  ⟨fun _ => b, fun _ => pc, 1, 0, 0, fun _ => 0⟩

theorem solo_goto (b : WorkStealingDeque.State (Fin 1) Task) (pc pc' : WorkerPc 1) :
    (solo b pc).goto 0 pc' = solo b pc' := by
  have hpc : Function.update (fun _ : Fin 1 => pc) 0 pc' = fun _ => pc' := by
    funext w
    rw [Subsingleton.elim w 0, Function.update_self]
  simp only [Pool.goto, solo, hpc]

/-- The worker of a pool of one takes a step of an operation on its own bag. -/
theorem solo_access {b b' : WorkStealingDeque.State (Fin 1) Task} {pc : WorkerPc 1} {op : Op Task}
    {l : WorkStealingDeque.Label (Fin 1) Task} (hop : access 0 pc = some (0, l.actor, op))
    (hcall : l.call = none ∨ l.call = some op) (hstep : WorkStealingDeque.Step b l b') :
    Step (solo b pc) (shown 0 pc l) (solo b' (proceed pc l.reply)) := by
  have hbag : Function.update (fun _ : Fin 1 => b) 0 b' = fun _ => b' := by
    funext w
    rw [Subsingleton.elim w 0, Function.update_self]
  have h : Step (solo b pc) (shown 0 pc l) _ := .access (w := 0) hop hcall hstep
  rw [show (solo b pc).pc 0 = pc from rfl, solo_goto] at h
  simpa only [solo, hbag] using h

theorem solo_call {q : WsDeque Task} {o : OwnerPc Task} {pc : WorkerPc 1} {op : Op Task}
    (hop : access 0 pc = some (0, .owner, op)) (hentry : ownerEntry op = some o) :
    Step (solo ⟨q, .idle, fun _ => .idle⟩ pc) .silent (solo ⟨q, o, fun _ => .idle⟩ pc) :=
  solo_access hop (.inr rfl) (.ownerCall rfl hentry)

theorem solo_owner {q q' : WsDeque Task} {o o' : OwnerPc Task} {pc : WorkerPc 1} {op : Op Task}
    {ev : Option (SequentialDeque.Event Task)} {rep : Option (Reply Task)}
    (hop : access 0 pc = some (0, .owner, op)) (hbusy : o ≠ .idle)
    (h : ownerStep q o = ⟨q', o', ev, rep⟩) :
    Step (solo ⟨q, o, fun _ => .idle⟩ pc) (shown 0 pc ⟨.owner, none, ev, rep⟩)
      (solo ⟨q', o', fun _ => .idle⟩ (proceed pc rep)) :=
  solo_access hop (.inl rfl) (.owner_of_eq hbusy h)

/-- An idle deque that holds `k` tasks `x`. -/
def filled (x : Task) (k : ℕ) : WorkStealingDeque.State (Fin 1) Task :=
  ⟨⟨0, k, fun _ => x, bagPow2⟩, .idle, fun _ => .idle⟩

theorem solo_push (pc : WorkerPc 1) (x : Task) (k : ℕ) (hk : k < 2 ^ 18)
    (hop : access 0 pc = some (0, .owner, .push x)) :
    ∃ es, Run Step (solo (filled x k) pc) es (solo (filled x (k + 1)) (resume pc .pushed)) ∧
      pushed es = {x} ∧ fired es = 0 := by
  have hcap : WsDeque.cap (⟨0, k, fun _ => x, bagPow2⟩ : WsDeque Task) = 2 ^ 18 := rfl
  have hroom : ¬ WsDeque.cap (⟨0, k, fun _ => x, bagPow2⟩ : WsDeque Task) ≤ sub64 k 0 := by
    rw [sub64_of_le (Nat.zero_le k) (by omega), hcap]
    omega
  have htop : ownerStep (⟨0, k, fun _ => x, bagPow2⟩ : WsDeque Task) (.pushTop x k) =
      ⟨⟨0, k, fun _ => x, bagPow2⟩, .pushSlot x k, none, none⟩ := by
    simp only [ownerStep, if_neg hroom]
  have hslot : ownerStep (⟨0, k, fun _ => x, bagPow2⟩ : WsDeque Task) (.pushSlot x k) =
      ⟨⟨0, k, fun _ => x, bagPow2⟩, .pushBot x k, none, none⟩ := by
    have hsame : Function.update (fun _ : ℕ => x) (k &&& (2 ^ bagPow2 - 1)) x = fun _ => x :=
      Function.update_eq_self _ _
    simp only [ownerStep, WsDeque.setSlot, WsDeque.mask, WsDeque.cap, hsame]
  have hbot : ownerStep (⟨0, k, fun _ => x, bagPow2⟩ : WsDeque Task) (.pushBot x k) =
      ⟨⟨0, k + 1, fun _ => x, bagPow2⟩, .idle, some (.push x), some .pushed⟩ := by
    simp only [ownerStep, inc64_of_lt (show k + 1 < 2 ^ 64 by omega)]
  have hrun := ((((Run.single (solo_call hop rfl)).snoc (solo_owner hop (by simp) rfl)).snoc
    (solo_owner hop (by simp) htop)).snoc (solo_owner hop (by simp) hslot)).snoc
    (solo_owner hop (by simp) hbot)
  exact ⟨_, hrun, rfl, rfl⟩

/-- The newest of two tasks or more. -/
theorem solo_pop (pc : WorkerPc 1) (x : Task) (k : ℕ)
    (hop : access 0 pc = some (0, .owner, .pop)) :
    ∃ es, Run Step (solo (filled x (k + 2)) pc) es
        (solo (filled x (k + 1)) (resume pc (.got x))) ∧ pushed es = 0 ∧ fired es = 0 := by
  have hrun := ((((Run.single (solo_call hop rfl)).snoc
    (solo_owner (q := ⟨0, k + 2, fun _ => x, bagPow2⟩) hop (by simp) rfl)).snoc
    (solo_owner hop (by simp) rfl)).snoc (solo_owner hop (by simp) rfl)).snoc
    (solo_owner hop (by simp) rfl)
  exact ⟨_, hrun, rfl, rfl⟩

theorem wnfPoolInit_one : wnfPoolInit 1 (fun _ _ => 1) = some (solo (filled 1 0) .outside) := by
  have hpc : (fun w : Fin 1 => if w = 0 then .outside else .parked) =
      fun _ => (.outside : WorkerPc 1) := by
    funext w
    rw [Subsingleton.elim w 0, if_pos rfl]
  simp only [wnfPoolInit, maxThreads, hpc]
  rfl

theorem solo_step {b : WorkStealingDeque.State (Fin 1) Task} {pc pc' : WorkerPc 1}
    {e : Event (Fin 1) Task} (h : Step (solo b pc) e ((solo b pc).goto 0 pc')) :
    Run Step (solo b pc) [e] (solo b pc') := solo_goto b pc pc' ▸ Run.single h

/-- A task that pushes itself again before its fire is complete. -/
theorem run_refire (f : ℕ) (hf : f < 2 ^ 64 - 1) :
    ∃ es, Run Step (solo (filled 1 2) (.drainCheck f)) es
        (solo (filled 1 2) (.drainCheck (f + 1))) ∧ pushed es = {1} ∧ fired es = {1} := by
  have hinc : inc64 f = f + 1 := inc64_of_lt (by omega)
  have hcheck : Run Step (solo (filled 1 2) (.drainCheck f)) [.silent]
      (solo (filled 1 2) (.popping (.drainLocal f))) := solo_step (.drainCheck rfl hf)
  obtain ⟨es, hpop, hpushed, hfired⟩ := solo_pop (.popping (.drainLocal f)) 1 0 rfl
  have hfire : Run Step (solo (filled 1 1) (.firing (.drainLocal f) 1)) [.silent]
      (solo (filled 1 1) (.pushing (.drainLocal f) 1 1)) := solo_step (.firePush rfl (by decide))
  obtain ⟨fs, hpush, hpushed', hfired'⟩ :=
    solo_push (.pushing (.drainLocal f) 1 1) 1 1 (by decide) rfl
  have hdone : Run Step (solo (filled 1 2) (.firing (.drainLocal f) 1)) [.fire 0 1]
      (solo (filled 1 2) (.drainCheck (f + 1))) := by
    have hstep : Step (solo (filled 1 2) (.firing (.drainLocal f) 1)) (.fire 0 1) _ := .fired rfl
    rw [← hinc]
    exact solo_step hstep
  refine ⟨_, (((hcheck.trans hpop).trans hfire).trans hpush).trans hdone, ?_, ?_⟩
  · simp only [pushed_append, hpushed, hpushed']
    rfl
  · simp only [fired_append, hfired, hfired']
    rfl

/-- After the seeds, any number of such fires below the limit. -/
theorem run_refires (f : ℕ) (hf : f ≤ 2 ^ 64 - 1) :
    ∃ es, Run Step (solo (filled 1 0) .outside) es (solo (filled 1 2) (.drainCheck f)) ∧
      Multiset.card (pushed es) = f + 2 ∧ Multiset.card (fired es) = f := by
  induction f with
  | zero =>
    have hseed : ∀ k, Run Step (solo (filled 1 k) .outside) [.silent]
        (solo (filled 1 k) (.seeding 0 1)) := fun k => solo_step (.seed rfl (by decide))
    obtain ⟨es, hpush, hpushed, hfired⟩ := solo_push (.seeding 0 1) 1 0 (by decide) rfl
    obtain ⟨fs, hpush', hpushed', hfired'⟩ := solo_push (.seeding 0 1) 1 1 (by decide) rfl
    have hdrain : Run Step (solo (filled 1 2) .outside) [.silent]
        (solo (filled 1 2) (.drainCheck 0)) := solo_step (.drainAlone rfl rfl)
    refine ⟨_, ((((hseed 0).trans hpush).trans (hseed 1)).trans hpush').trans hdrain, ?_, ?_⟩
    · simp only [pushed_append, hpushed, hpushed']
      rfl
    · simp only [fired_append, hfired, hfired']
      rfl
  | succ f ih =>
    obtain ⟨es, hrun, hpushed, hfired⟩ := ih (by omega)
    obtain ⟨fs, hfire, hpushed', hfired'⟩ := run_refire f (by omega)
    refine ⟨es ++ fs, hrun.trans hfire, ?_, ?_⟩
    · rw [pushed_append, hpushed', Multiset.card_add, hpushed, Multiset.card_singleton]
    · rw [fired_append, hfired', Multiset.card_add, hfired, Multiset.card_singleton]

end Thvm.WorkerPool
