import Thvm.WorkStealingDeque
import Thvm.TerminationDetection

/-!
# The worker pool of `wnf/pool.c`

Worker 0 is the calling thread, the others are persistent threads that wait for
the next drain. Every worker owns a deque. All workers interleave at the atomic
steps of their deques and of the shared counters; a section under the mutex is one
step. What `fire` does is left open: it may push any tasks, one after another.
-/

namespace Thvm.WorkerPool
open WorkStealingDeque (Actor Op Reply)
open FixedWidth
open TerminationDetection (Event)

/-- A packed `Term`. -/
abbrev Task := ℕ

/-- `MAX_THREADS`. -/
def maxThreads : ℕ := 64

/-- `cap_pow2` of every bag. -/
def bagPow2 : ℕ := 18

/-- `~(u64)0`, the fire limit of a drain on a single worker. -/
def maxFires : ℕ := 2 ^ 64 - 1

/-- The loop that a worker runs, with the local that outlives one round of it. -/
inductive Loop
  | workerLoop (cursor : ℕ)
  | drainLocal (fired : ℕ)
  deriving DecidableEq, Repr

/-- Where a worker stands. While it is inside an operation on a deque, the rest of
its position is in that deque. -/
inductive WorkerPc (n : ℕ)
  | parked
  | outside
  | seeding (v : Fin n) (t : Task)
  | starting
  | drainCheck (fired : ℕ)
  | popping (l : Loop)
  | firing (l : Loop) (r : Task)
  | pushing (l : Loop) (r t : Task)
  | hunt (start k : ℕ)
  | stealing (start k : ℕ) (v : Fin n)
  | goIdle (cursor : ℕ)
  | scan (cursor v : ℕ)
  | scanBot (cursor : ℕ) (v : Fin n) (t : ℕ)
  | checkAlive (cursor : ℕ)
  | reawake (cursor : ℕ)
  | left
  | waiting
  deriving DecidableEq, Repr

/-- `WnfPool`, its counters of statistics aside. -/
structure Pool (n : ℕ) where
  bag : Fin n → WorkStealingDeque.State (Fin n) Task
  pc : Fin n → WorkerPc n
  alive : ℕ
  pending : ℕ
  drainGen : ℕ
  workerSeenGen : Fin n → ℕ

/-- `wnf_pool_init`. -/
def wnfPoolInit (n : ℕ) [NeZero n] (buf : Fin n → ℕ → Task) : Option (Pool n) :=
  if maxThreads < n then none
  else some {
    bag := fun w => WorkStealingDeque.init bagPow2 (buf w)
    pc := fun w => if w = 0 then .outside else .parked
    alive := n
    pending := 0
    drainGen := 0
    workerSeenGen := fun _ => 0 }

variable {n : ℕ}

/-- The operation on a deque that a worker is inside of: on whose bag, in which role. -/
def access (tid : Fin n) : WorkerPc n → Option (Fin n × Actor (Fin n) × Op Task)
  | .popping _ => some (tid, .owner, .pop)
  | .pushing _ _ t => some (tid, .owner, .push t)
  | .stealing _ _ v => some (v, .thief tid, .steal)
  | .seeding v t => some (v, .owner, .push t)
  | _ => none

/-- How a worker goes on after an operation on a deque. -/
def resume : WorkerPc n → Reply Task → WorkerPc n
  | .popping l, .got r => .firing l r
  | .popping (.workerLoop cursor), _ => .hunt cursor 1
  | .popping (.drainLocal _), _ => .outside
  -- wnf_pool_push spins while the bag is full
  | .pushing l r t, .full => .pushing l r t
  | .pushing l r _, _ => .firing l r
  | .seeding v t, .full => .seeding v t
  | .seeding _ _, _ => .outside
  | .stealing _ _ v, .got r => .firing (.workerLoop (v + 1)) r
  | .stealing start k _, _ => .hunt start (k + 1)
  | pc, _ => pc

/-- The position after a step on a deque that returns or does not. -/
def proceed (pc : WorkerPc n) : Option (Reply Task) → WorkerPc n
  | none => pc
  | some r => resume pc r

/-- How a worker goes on after a fire. -/
def afterFire : Loop → WorkerPc n
  | .workerLoop cursor => .popping (.workerLoop cursor)
  | .drainLocal fired => .drainCheck (inc64 fired)

/-- The peer at distance `k` in the shifted round robin of `wnf_pool_steal`. -/
def peer [NeZero n] (start k : ℕ) : Fin n := Fin.ofNat n ((start + k) % 2 ^ 32)

/-- The drain on a single worker returns when its pop comes back empty-handed. -/
def emptyHanded : WorkerPc n → Event (Fin n) Task
  | .popping (.drainLocal _) => .ret
  | _ => .silent

/-- What an atomic step on bag `v` shows of the pool. -/
def shown (v : Fin n) (pc : WorkerPc n) (l : WorkStealingDeque.Label (Fin n) Task) :
    Event (Fin n) Task :=
  match l.event with
  | some (.push t) => .push v t
  | some .popNone => emptyHanded pc
  | _ => .silent

/-- A step of worker `w` that only moves its own position. -/
def Pool.goto (s : Pool n) (w : Fin n) (pc : WorkerPc n) : Pool n :=
  { s with pc := Function.update s.pc w pc }

inductive Step [NeZero n] : Pool n → Event (Fin n) Task → Pool n → Prop
  | access {s : Pool n} {w v : Fin n} {op : Op Task} {b' : WorkStealingDeque.State (Fin n) Task}
      {l : WorkStealingDeque.Label (Fin n) Task}
      (at_op : access w (s.pc w) = some (v, l.actor, op)) (call : l.call = none ∨ l.call = some op)
      (step : WorkStealingDeque.Step (s.bag v) l b') :
      Step s (shown v (s.pc w) l)
        { s.goto w (proceed (s.pc w) l.reply) with bag := Function.update s.bag v b' }
  -- the driver between two drains: wnf_pool_push ignores the task 0
  | seed {s : Pool n} {v : Fin n} {t : Task} (at_pc : s.pc 0 = .outside) (task : t ≠ 0) :
      Step s .silent (s.goto 0 (.seeding v t))
  -- wnf_pool_drain_parallel
  | drainAlone {s : Pool n} (at_pc : s.pc 0 = .outside) (single : n = 1) :
      Step s .silent (s.goto 0 (.drainCheck 0))
  | announce {s : Pool n} (at_pc : s.pc 0 = .outside) (several : n ≠ 1) :
      Step s .silent { s.goto 0 .starting with alive := n }
  | broadcast {s : Pool n} (at_pc : s.pc 0 = .starting) :
      Step s .silent
        { s.goto 0 (.popping (.workerLoop (1 % n))) with
          pending := n, drainGen := inc64 s.drainGen }
  | finish {s : Pool n} (at_pc : s.pc 0 = .waiting) (none : s.pending = 0) :
      Step s .ret (s.goto 0 .outside)
  -- wnf_pool_persistent_main
  | wake {s : Pool n} {w : Fin n} (at_pc : s.pc w = .parked)
      (signal : s.drainGen ≠ s.workerSeenGen w) :
      Step s .silent
        { s.goto w (.popping (.workerLoop ((w + 1) % n))) with
          workerSeenGen := Function.update s.workerSeenGen w s.drainGen }
  | retire {s : Pool n} {w : Fin n} (at_pc : s.pc w = .left) :
      Step s .silent
        { s.goto w (if w = 0 then .waiting else .parked) with pending := dec32 s.pending }
  -- wnf_pool_drain_local
  | drainCheck {s : Pool n} {w : Fin n} {fired : ℕ} (at_pc : s.pc w = .drainCheck fired)
      (more : fired < maxFires) : Step s .silent (s.goto w (.popping (.drainLocal fired)))
  | drainLimit {s : Pool n} {w : Fin n} {fired : ℕ} (at_pc : s.pc w = .drainCheck fired)
      (limit : maxFires ≤ fired) : Step s .ret (s.goto w .outside)
  -- wnf_pool_worker_loop
  | firePush {s : Pool n} {w : Fin n} {l : Loop} {r t : Task} (at_pc : s.pc w = .firing l r)
      (task : t ≠ 0) : Step s .silent (s.goto w (.pushing l r t))
  | fired {s : Pool n} {w : Fin n} {l : Loop} {r : Task} (at_pc : s.pc w = .firing l r) :
      Step s (.fire w r) (s.goto w (afterFire l))
  | hunt {s : Pool n} {w : Fin n} {start k : ℕ} (at_pc : s.pc w = .hunt start k) :
      Step s .silent (s.goto w (
        if k < n then
          if peer start k = w then .hunt start (k + 1) else .stealing start k (peer start k)
        else .goIdle ((start + 1) % 2 ^ 32)))
  | goIdle {s : Pool n} {w : Fin n} {cursor : ℕ} (at_pc : s.pc w = .goIdle cursor) :
      Step s .silent
        { s.goto w (if s.alive % 2 ^ 32 = 1 then .left else .scan cursor 0) with
          alive := sub64 s.alive 1 }
  -- wnf_pool_any_work reads top and bot of each bag but the own one
  | scan {s : Pool n} {w : Fin n} {cursor v : ℕ} (at_pc : s.pc w = .scan cursor v) :
      Step s .silent (s.goto w (
        if h : v < n then
          if v = w then .scan cursor (v + 1) else .scanBot cursor ⟨v, h⟩ (s.bag ⟨v, h⟩).q.top
        else .checkAlive cursor))
  | scanBot {s : Pool n} {w v : Fin n} {cursor t : ℕ} (at_pc : s.pc w = .scanBot cursor v t) :
      Step s .silent (s.goto w (
        if t < (s.bag v).q.bot then .reawake cursor else .scan cursor (v + 1)))
  | reawake {s : Pool n} {w : Fin n} {cursor : ℕ} (at_pc : s.pc w = .reawake cursor) :
      Step s .silent
        { s.goto w (.popping (.workerLoop cursor)) with alive := inc64 s.alive }
  | checkAlive {s : Pool n} {w : Fin n} {cursor : ℕ} (at_pc : s.pc w = .checkAlive cursor) :
      Step s .silent (s.goto w (if s.alive = 0 then .left else .scan cursor 0))

/-- The number of tasks that were pushed onto bag `v`. -/
def pushesOn (v : Fin n) (es : List (Event (Fin n) Task)) : ℕ :=
  es.countP fun e => match e with
    | .push u _ => u = v
    | _ => false

end Thvm.WorkerPool
