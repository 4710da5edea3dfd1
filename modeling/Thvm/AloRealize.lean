import Thvm.Terms

/-!
# Realising book templates

Walking one layer of a static template into the dynamic heap. Children are wrapped
in suspensions and realised when they are forced. A table shares the dynamic cell
of a duplication between its two projections.
-/

namespace Thvm.Alo

structure AloState where
  parent : ℕ
  oldLoc : ℕ
  newLoc : ℕ
  deriving DecidableEq

structure DupShareEntry where
  gen : ℕ
  stateId : ℕ
  bookLoc : ℕ
  dynLoc : ℕ
  deriving DecidableEq

structure Runtime where
  book : ℕ → Term
  defs : ℕ → Option Term
  heap : ℕ → Term
  heapNext : ℕ
  heapCap : ℕ
  states : ℕ → AloState
  statesNext : ℕ
  dupShare : ℕ → DupShareEntry
  dupShareGen : ℕ

def aloStateCap : ℕ := 2 ^ 22

def dupShareBits : ℕ := 20

def dupShareProbe : ℕ := 8

namespace Runtime

variable (rt : Runtime)

def heapSet (loc : ℕ) (t : Term) : Runtime := { rt with heap := Function.update rt.heap loc t }

def heapAlloc (size : ℕ) : Except Halt (Runtime × ℕ) :=
  if rt.heapCap < rt.heapNext + size then .error .fatal
  else .ok ({ rt with heapNext := rt.heapNext + size }, rt.heapNext)

end Runtime

def aloStatePush (rt : Runtime) (parent oldLoc newLoc : ℕ) : Except Halt (Runtime × ℕ) :=
  if aloStateCap ≤ rt.statesNext then .error .fatal
  else .ok ({ rt with
    states := Function.update rt.states rt.statesNext ⟨parent, oldLoc, newLoc⟩
    statesNext := rt.statesNext + 1 }, rt.statesNext)

/-- The loop of `alo_state_lookup`. -/
def aloStateWalk (rt : Runtime) (oldLoc : ℕ) : ℕ → ℕ → Except Halt (Option ℕ)
  | 0, _ => .error .rounds
  | rounds + 1, cur =>
    if cur = 0 then .ok none
    else if (rt.states cur).oldLoc = oldLoc then .ok (some (rt.states cur).newLoc)
    else aloStateWalk rt oldLoc rounds (rt.states cur).parent

def aloStateLookup (rt : Runtime) (stateId oldLoc : ℕ) : Except Halt (Option ℕ) :=
  aloStateWalk rt oldLoc (rt.statesNext + 1) stateId

def dupShareHash (state book : ℕ) : ℕ :=
  let h := (state * 2654435761 + book * 11400714785074694791) % 2 ^ 64
  ((h / 2 ^ 32) ^^^ h) % 2 ^ dupShareBits

/-- The slots that a key looks at. -/
def dupShareSlots (state book : ℕ) : List ℕ :=
  (List.range dupShareProbe).map fun i => (dupShareHash state book + i) % 2 ^ dupShareBits

def dupShareSearch (table : ℕ → DupShareEntry) (gen state book : ℕ) : List ℕ → Option ℕ
  | [] => none
  | slot :: rest =>
    let e := table slot
    if e.gen ≠ gen then none
    else if e.stateId = state ∧ e.bookLoc = book then some e.dynLoc
    else dupShareSearch table gen state book rest

def dupShareLookup (rt : Runtime) (state book : ℕ) : Option ℕ :=
  dupShareSearch rt.dupShare rt.dupShareGen state book (dupShareSlots state book)

/-- Writes the first slot of another generation; without one the entry is dropped. -/
def dupShareInsert (table : ℕ → DupShareEntry) (e : DupShareEntry) : List ℕ → ℕ → DupShareEntry
  | [] => table
  | slot :: rest =>
    if (table slot).gen ≠ e.gen then Function.update table slot e else dupShareInsert table e rest

def dupSharePush (rt : Runtime) (state book dyn : ℕ) : Runtime :=
  let e : DupShareEntry := ⟨rt.dupShareGen, state, book, dyn⟩
  { rt with dupShare := dupShareInsert rt.dupShare e (dupShareSlots state book) }

def aloDupShareReset (rt : Runtime) : Runtime :=
  let gen := (rt.dupShareGen + 1) % 2 ^ 32
  if gen = 0 then { rt with dupShare := fun _ => ⟨0, 0, 0, 0⟩, dupShareGen := 1 }
  else { rt with dupShareGen := gen }

def aloNodeArity (book : ℕ → Term) (t : Term) : ℕ :=
  match t.tag with
  | .app => 2
  | .sup => 2
  | .dup => 1
  | .op2 => 2
  | .mat => 2
  | .eql => 2
  | .and => 2
  | .or => 2
  | .when => 2
  | .dp0 | .dp1 => if dupGradFlag t.ext then 3 else 1
  | .uop =>
    match t.ext with
    | Uop.const => 1
    | Uop.add | Uop.mul | Uop.cmplt => 2
    | Uop.neg | Uop.recip | Uop.exp2 | Uop.log2 | Uop.sqrt => 1
    | Uop.reduce =>
      let nCell := book (t.val + 2)
      let nAxes := if nCell.tag = .num then nCell.val % 2 ^ 32 else 1
      3 + min nAxes maxDim
    | Uop.load => 1
    | Uop.kernel => 2
    | _ => 0
  | _ => 0

def termNewAlo (rt : Runtime) (bookTerm : Term) (stateId : ℕ) : Except Halt (Runtime × Term) := do
  let (rt, loc) ← rt.heapAlloc 2
  let rt := rt.heapSet loc bookTerm
  let rt := rt.heapSet (loc + 1) (termNew false .num dtInt32 stateId)
  .ok (rt, termNew false .alo 0 loc)

/-- Tags that `alo_suspend_child` and `alo_realize` pass through bare. -/
def Atomic (t : Term) : Prop := t.tag = .num ∨ t.tag = .ten ∨ t.tag = .ref ∨ t.tag = .era

instance (t : Term) : Decidable (Atomic t) := inferInstanceAs (Decidable (_ ∨ _))

def aloSuspendChild (rt : Runtime) (bookChild : Term) (state : ℕ) : Except Halt (Runtime × Term) :=
  if Atomic bookChild then .ok (rt, bookChild) else termNewAlo rt bookChild state

/-- `n` children from `src` in the book on, suspended into the cells from `dst` on. -/
def suspendRun (state : ℕ) : ℕ → ℕ → ℕ → Runtime → Except Halt Runtime
  | 0, _, _, rt => .ok rt
  | n + 1, src, dst, rt => do
    let (rt, t) ← aloSuspendChild rt (rt.book src) state
    suspendRun state n (src + 1) (dst + 1) (rt.heapSet dst t)

/-- The dynamic cell of the duplication at `val` in the book. -/
def shareDup (rt : Runtime) (state val : ℕ) : Except Halt (Runtime × ℕ) :=
  match dupShareLookup rt state val with
  | some loc => .ok (rt, loc)
  | none => do
    let (rt, loc) ← rt.heapAlloc 1
    let (rt, body) ← aloSuspendChild rt (rt.book val) state
    .ok (dupSharePush (rt.heapSet loc body) state val loc, loc)

/-- The default branch: nodes of fixed arity. -/
def realizeNode (rt : Runtime) (t : Term) (state : ℕ) : Except Halt (Runtime × Term) :=
  if aloNodeArity rt.book t = 0 then .ok (rt, t)
  else do
    let ar := aloNodeArity rt.book t
    let (rt, loc) ← rt.heapAlloc ar
    let rt ← suspendRun state ar t.val loc rt
    .ok (rt, termNew false t.tag t.ext loc)

def aloRealize (rt : Runtime) (t : Term) (state : ℕ) : Except Halt (Runtime × Term) :=
  match t.tag with
  | .num | .ten | .ref | .era => .ok (rt, t)
  | .var => do
    match ← aloStateLookup rt state t.val with
    | some loc => .ok (rt, termNew false .var t.ext loc)
    | none => .ok (rt, t)
  | .dp0 | .dp1 =>
    if dupGradFlag t.ext then realizeNode rt t state
    else do
      let (rt, loc) ← shareDup rt state t.val
      .ok (rt, termNew false t.tag t.ext loc)
  | .bj0 => do
    let (rt, loc) ← shareDup rt state t.val
    .ok (rt, termNew false .dp0 t.ext loc)
  | .bj1 => do
    let (rt, loc) ← shareDup rt state t.val
    .ok (rt, termNew false .dp1 t.ext loc)
  | .ctr =>
    let nCell := rt.book t.val
    if nCell.tag ≠ .num then .ok (rt, t)
    else do
      let n := nCell.val % 2 ^ 32
      let (rt, loc) ← rt.heapAlloc (1 + n)
      let rt ← suspendRun state n (t.val + 1) (loc + 1) (rt.heapSet loc nCell)
      .ok (rt, termNew false .ctr t.ext loc)
  | .lam => do
    let (rt, loc) ← rt.heapAlloc 1
    let (rt, bodyState) ← aloStatePush rt state t.val loc
    let (rt, body) ← aloSuspendChild rt (rt.book t.val) bodyState
    .ok (rt.heapSet loc body, termNew false .lam t.ext loc)
  | _ => realizeNode rt t state

def aloForce (rt : Runtime) (t : Term) : Except Halt (Runtime × Term) :=
  let bookTerm := rt.heap t.val
  let sidCell := rt.heap (t.val + 1)
  if sidCell.tag ≠ .num then .ok (rt, bookTerm)
  else do
    let (rt, realised) ← aloRealize rt bookTerm (sidCell.val % 2 ^ 32)
    .ok ((rt.heapSet t.val realised).heapSet (t.val + 1) (termNew false .era 0 0), realised)

end Thvm.Alo
