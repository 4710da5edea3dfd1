import Thvm.SequentialDeque
import Thvm.FixedWidth

/-!
# The Chase-Lev deque of `util/wsq.c`, one atomic step at a time

The owner pushes and pops at `bot`, thieves steal at `top`. Every load, store
and compare-and-swap of the source is one step, and the steps of the owner and of
any number of thieves interleave freely under sequential consistency. The
counters are `u64`: their arithmetic is taken modulo `2 ^ 64`, as in the source.
-/

namespace Thvm.WorkStealingDeque
open SequentialDeque FixedWidth

variable {α ι : Type*}

/-- `WsDeque`: the two counters and the ring of `2 ^ capacityPow2` cells. -/
structure WsDeque (α : Type*) where
  top : ℕ
  bot : ℕ
  buf : ℕ → α
  capacityPow2 : ℕ

namespace WsDeque

def cap (q : WsDeque α) : ℕ := 2 ^ q.capacityPow2

def mask (q : WsDeque α) : ℕ := q.cap - 1

/-- `q->buf[i & q->mask]`. -/
def slot (q : WsDeque α) (i : ℕ) : α := q.buf (i &&& q.mask)

/-- `q->buf[i & q->mask] = x`. -/
def setSlot (q : WsDeque α) (i : ℕ) (x : α) : WsDeque α :=
  { q with buf := Function.update q.buf (i &&& q.mask) x }

end WsDeque

/-- `wsq_init`: both counters at zero over whatever the allocation holds. -/
def wsqInit (capacityPow2 : ℕ) (buf : ℕ → α) : WsDeque α := ⟨0, 0, buf, capacityPow2⟩

/-- What an operation is asked to do. -/
inductive Op (α : Type*)
  | push (x : α)
  | pop
  | steal
  deriving DecidableEq, Repr

/-- What an operation returns: 1 or 0, with `*out` where the source sets it. -/
inductive Reply (α : Type*)
  | pushed
  | full
  | got (x : α)
  | none
  deriving DecidableEq, Repr

/-- Where the owner stands inside `wsq_push` or `wsq_pop`, with its locals. -/
inductive OwnerPc (α : Type*)
  | idle
  | push (x : α)
  | pushTop (x : α) (b : ℕ)
  | pushSlot (x : α) (b : ℕ)
  | pushBot (x : α) (b : ℕ)
  | pop
  | popDec (b : ℕ)
  | popTop (b₁ : ℕ)
  | popSlot (b₁ t : ℕ)
  | popCas (x : α) (t : ℕ)
  | popWon (x : α) (t : ℕ)
  | popLost (t : ℕ)
  | popEmpty (t : ℕ)
  deriving DecidableEq, Repr

/-- Where a thief stands inside `wsq_steal`, with its locals. -/
inductive ThiefPc (α : Type*)
  | idle
  | steal
  | stealBot (t : ℕ)
  | stealSlot (t : ℕ)
  | stealCas (x : α) (t : ℕ)
  deriving DecidableEq, Repr

/-- The outcome of one atomic step of an operation in progress. `event` is the
effect that takes place at this step; `reply` is set when the operation returns. -/
structure Outcome (Pc α : Type*) where
  deque : WsDeque α
  pc : Pc
  event : Option (Event α)
  reply : Option (Reply α)

/-- The owner's next atomic step. -/
def ownerStep (q : WsDeque α) : OwnerPc α → Outcome (OwnerPc α) α
  | .idle => ⟨q, .idle, none, none⟩
  -- wsq_push
  | .push x => ⟨q, .pushTop x q.bot, none, none⟩
  | .pushTop x b =>
    if q.cap ≤ sub64 b q.top then ⟨q, .idle, some (.full x), some .full⟩
    else ⟨q, .pushSlot x b, none, none⟩
  | .pushSlot x b => ⟨q.setSlot b x, .pushBot x b, none, none⟩
  | .pushBot x b => ⟨{ q with bot := inc64 b }, .idle, some (.push x), some .pushed⟩
  -- wsq_pop
  | .pop =>
    if q.bot = 0 then ⟨q, .idle, some .popNone, some .none⟩
    else ⟨q, .popDec q.bot, none, none⟩
  | .popDec b => ⟨{ q with bot := b - 1 }, .popTop (b - 1), none, none⟩
  | .popTop b₁ =>
    if q.top ≤ b₁ then ⟨q, .popSlot b₁ q.top, none, none⟩
    else ⟨q, .popEmpty q.top, none, none⟩
  | .popSlot b₁ t =>
    if t = b₁ then ⟨q, .popCas (q.slot b₁) t, none, none⟩
    else ⟨q, .idle, some (.pop (q.slot b₁)), some (.got (q.slot b₁))⟩
  | .popCas x t =>
    -- the last element: the swap of `top` decides between owner and thieves
    if q.top = t then ⟨{ q with top := inc64 t }, .popWon x t, some (.pop x), none⟩
    else ⟨q, .popLost t, none, none⟩
  | .popWon x t => ⟨{ q with bot := inc64 t }, .idle, none, some (.got x)⟩
  | .popLost t => ⟨{ q with bot := inc64 t }, .idle, some .popNone, some .none⟩
  | .popEmpty t => ⟨{ q with bot := t }, .idle, some .popNone, some .none⟩

/-- A thief's next atomic step. -/
def thiefStep (q : WsDeque α) : ThiefPc α → Outcome (ThiefPc α) α
  | .idle => ⟨q, .idle, none, none⟩
  | .steal => ⟨q, .stealBot q.top, none, none⟩
  | .stealBot t =>
    if q.bot ≤ t then ⟨q, .idle, some .stealNone, some .none⟩
    else ⟨q, .stealSlot t, none, none⟩
  | .stealSlot t => ⟨q, .stealCas (q.slot t) t, none, none⟩
  | .stealCas x t =>
    if q.top = t then ⟨{ q with top := inc64 t }, .idle, some (.steal x), some (.got x)⟩
    else ⟨q, .idle, some .stealNone, some .none⟩

/-- Who takes a step. -/
inductive Actor (ι : Type*)
  | owner
  | thief (i : ι)
  deriving DecidableEq, Repr

/-- What one step shows: who took it, the operation it starts, the effect that
takes place and the value it returns. -/
structure Label (ι α : Type*) where
  actor : Actor ι
  call : Option (Op α)
  event : Option (Event α)
  reply : Option (Reply α)

/-- The deque together with the program counters of its owner and its thieves. -/
structure State (ι α : Type*) where
  q : WsDeque α
  owner : OwnerPc α
  thief : ι → ThiefPc α

def init (capacityPow2 : ℕ) (buf : ℕ → α) : State ι α :=
  ⟨wsqInit capacityPow2 buf, .idle, fun _ => .idle⟩

/-- The owner starts pushes and pops, one after another. -/
def ownerEntry : Op α → Option (OwnerPc α)
  | .push x => some (.push x)
  | .pop => some .pop
  | .steal => none

variable [DecidableEq ι]

/-- One step of one actor. -/
inductive Step : State ι α → Label ι α → State ι α → Prop
  | ownerCall {s : State ι α} {op : Op α} {pc : OwnerPc α} (hidle : s.owner = .idle)
      (hop : ownerEntry op = some pc) :
      Step s ⟨.owner, some op, none, none⟩ { s with owner := pc }
  | ownerRun {s : State ι α} (hbusy : s.owner ≠ .idle) :
      Step s ⟨.owner, none, (ownerStep s.q s.owner).event, (ownerStep s.q s.owner).reply⟩
        { s with q := (ownerStep s.q s.owner).deque, owner := (ownerStep s.q s.owner).pc }
  | thiefCall {s : State ι α} (i : ι) (hidle : s.thief i = .idle) :
      Step s ⟨.thief i, some .steal, none, none⟩
        { s with thief := Function.update s.thief i .steal }
  | thiefRun {s : State ι α} (i : ι) (hbusy : s.thief i ≠ .idle) :
      Step s ⟨.thief i, none, (thiefStep s.q (s.thief i)).event,
          (thiefStep s.q (s.thief i)).reply⟩
        { s with
          q := (thiefStep s.q (s.thief i)).deque
          thief := Function.update s.thief i (thiefStep s.q (s.thief i)).pc }

/-- The effects of a run in the order in which they took place. -/
def events (ls : List (Label ι α)) : List (Event α) := ls.filterMap Label.event

/-- The number of pushes that succeeded. -/
def pushes (ls : List (Label ι α)) : ℕ := (pushed (events ls)).length

end Thvm.WorkStealingDeque
