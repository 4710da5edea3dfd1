import Thvm.KnuthBendixOrder
import Thvm.LocatedTerms
import Thvm.MemoTables

/-!
# The memo of term weights

The weight of a constructor and how often each variable occurs in it are kept in a table
by structural hash; a second table leads from the word of a term to its hash. Both have
one epoch.
-/

namespace Thvm.Kbo

open MemoTables

structure KboConfig where
  weights : ℕ → ℕ
  precedence : ℕ → ℕ
  nLabels : ℕ
  varWeight : ℕ

namespace KboConfig

variable (cfg : KboConfig)

def weight (label : ℕ) : ℕ := if label < cfg.nLabels then cfg.weights label else 0

def prec (label : ℕ) : ℕ := if label < cfg.nLabels then cfg.precedence label else 0

def scale : KnuthBendix.Scale ℕ ℕ := ⟨cfg.weight, cfg.varWeight, cfg.prec⟩

end KboConfig

def kboMaxVar : ℕ := 64

def kboThashSize : ℕ := 2 ^ 16

def kboWmemoSize : ℕ := 2 ^ 16

def kboVprofCap : ℕ := 6

/-! ### Structural hashes -/

def kboMix64 (x₀ : ℕ) : ℕ :=
  let x₁ := (x₀ ^^^ (x₀ >>> 30)) * 0xbf58476d1ce4e5b9 % 2 ^ 64
  let x₂ := (x₁ ^^^ (x₁ >>> 27)) * 0x94d049bb133111eb % 2 ^ 64
  x₂ ^^^ (x₂ >>> 31)

/-- The loop over the hashes of the children, from the one at `i` on. -/
def kboFoldHash (h : ℕ) : ℕ → List ℕ → ℕ
  | _, [] => h
  | i, c :: cs =>
    kboFoldHash ((h ^^^ kboMix64 ((c + 0x9e3779b97f4a7c15 * (i + 1)) % 2 ^ 64)) *
      0x100000001b3 % 2 ^ 64) (i + 1) cs

def kboNodeHash (label : ℕ) (childHashes : List ℕ) : ℕ :=
  kboFoldHash (0xcbf29ce484222325 ^^^ (label * 0x100000001b3 % 2 ^ 64)) 0 childHashes ^^^
    (childHashes.length * 0x9e3779b97f4a7c15 % 2 ^ 64)

/-- The hash of a variable, or of an atom, which is that of its tag. -/
def kboAtomHash : Leaf → ℕ
  | .fvr id => kboMix64 (0xfacefaceface ^^^ (id * 0x100000001b3 % 2 ^ 64))
  | .num _ _ => kboMix64 (0xdeadbeefcafebabe ^^^ (Tag.num.ctorIdx * 0x100000001b3 % 2 ^ 64))

mutual

/-- The hash of a term; arguments behind `REWRITE_MAX_ARITY` do not count. -/
def kboHash : FTerm → ℕ
  | .leaf l => kboAtomHash l
  | .node f args => kboNodeHash f ((kboHashes args).take rewriteMaxArity)

def kboHashes : List FTerm → List ℕ
  | [] => []
  | a :: as => kboHash a :: kboHashes as

end

/-! ### The tables -/

/-- `KboWMemoEnt` without its key: the profile lists ids with their counts, and is missing
when it has overflowed. -/
structure KboWeight where
  w : ℕ
  profile : Option (List (ℕ × ℤ))

/-- `g_kbo_thash` keeps a hash and a slot for a word, `g_kbo_wmemo` a weight for a hash. -/
structure KboMemos where
  thash : Memo Term (ℕ × ℕ)
  wmemo : Memo ℕ KboWeight
  same_epoch : thash.epoch = wmemo.epoch

abbrev KboM := StateM KboMemos

def kboThashSlot (t : Term) : ℕ :=
  let h := t.bits * 0x9E3779B97F4A7C15 % 2 ^ 64
  (h ^^^ (h >>> 29)) % kboThashSize

def kboWmemoSlot (hash : ℕ) : ℕ := (hash ^^^ (hash >>> 29)) % kboWmemoSize

namespace KboMemos

def start : KboMemos := ⟨.zeroed ⟨false, .app, 0, 0⟩ (0, 0) 1, .zeroed 0 ⟨0, some []⟩ 1, rfl⟩

def storeHash (m : KboMemos) (t : Term) (hash : ℕ) : KboMemos where
  thash := m.thash.store (kboThashSlot t) t (hash, kboWmemoSlot hash)
  wmemo := m.wmemo
  same_epoch := m.same_epoch

def storeWeight (m : KboMemos) (hash : ℕ) (e : KboWeight) : KboMemos where
  thash := m.thash
  wmemo := m.wmemo.store (kboWmemoSlot hash) hash e
  same_epoch := m.same_epoch

/-- `thvm_kbo_invalidate`. -/
def invalidate (m : KboMemos) : KboMemos where
  thash := m.thash.invalidate
  wmemo := m.wmemo.invalidate
  same_epoch := by rw [Memo.epoch_invalidate, Memo.epoch_invalidate, m.same_epoch]

/-- The weight that the tables hold for a word. -/
def lookup (m : KboMemos) (t : Term) : Option KboWeight :=
  match m.thash.find (kboThashSlot t) t with
  | some (hash, idx) => m.wmemo.find idx hash
  | none => none

end KboMemos

mutual

/-- `kbo_leaf_hash`. -/
def kboLeafHash (m : KboMemos) : LTerm → ℕ
  | .leaf l => kboAtomHash l
  | .node c args =>
    match m.thash.find (kboThashSlot (LTerm.word (.node c args))) (LTerm.word (.node c args)) with
    | some (hash, _) => hash
    | none => kboNodeHash c.label ((kboLeafHashes m args).take rewriteMaxArity)

def kboLeafHashes (m : KboMemos) : List LTerm → List ℕ
  | [] => []
  | a :: as => kboLeafHash m a :: kboLeafHashes m as

end

/-! ### Filling the tables -/

/-- The range of an `i16`. -/
def fitsI16 (n : ℤ) : Bool := -32768 ≤ n && n ≤ 32767

/-- `kbo_vprof_add` with room for so many more ids. -/
def kboVprofAdd (id : ℕ) (delta : ℤ) : ℕ → List (ℕ × ℤ) → Option (List (ℕ × ℤ))
  | room, (vid, vcnt) :: p =>
    if vid = id then if fitsI16 (vcnt + delta) then some ((vid, vcnt + delta) :: p) else none
    else (kboVprofAdd id delta (room - 1) p).map fun q => (vid, vcnt) :: q
  | 0, [] => none
  | _ + 1, [] => if fitsI16 delta then some [(id, delta)] else none

/-- Adds every entry of a profile. -/
def kboVprofMerge (acc : List (ℕ × ℤ)) : List (ℕ × ℤ) → Option (List (ℕ × ℤ))
  | [] => some acc
  | e :: p => do
    let acc ← kboVprofAdd e.1 e.2 kboVprofCap acc
    kboVprofMerge acc p

namespace KboWeight

/-- A variable among the children. -/
def addVar (cfg : KboConfig) (id : ℕ) (e : KboWeight) : KboWeight where
  w := e.w + cfg.varWeight
  profile := if id < kboMaxVar then e.profile.bind (kboVprofAdd id 1 kboVprofCap) else e.profile

/-- A constructor among the children. -/
def addChild (child e : KboWeight) : KboWeight where
  w := e.w + child.w
  profile := do
    let p ← child.profile
    let acc ← e.profile
    kboVprofMerge acc p

end KboWeight

section Fill

variable (subtree : LTerm → KboM KboWeight) (cfg : KboConfig)

/-- A child that should be in the tables already. -/
def kboMemoChild (t : LTerm) : KboM KboWeight := do
  let m ← get
  match m.lookup t.word with
  | some e => pure e
  | none => subtree t

/-- The loop over the children of a node. -/
def kboMemoAdd : List LTerm → KboWeight → KboM KboWeight
  | [], acc => pure acc
  | .leaf (.fvr id) :: as, acc => kboMemoAdd as (acc.addVar cfg id)
  | .leaf (.num _ _) :: as, acc => kboMemoAdd as acc
  | .node c args :: as, acc => do
    let child ← kboMemoChild subtree (.node c args)
    kboMemoAdd as (child.addChild acc)

def kboMemoCombine : LTerm → KboM KboWeight
  | .leaf _ => pure ⟨0, some []⟩
  | .node c args => do
    let m ← get
    let hash := kboNodeHash c.label ((kboLeafHashes m args).take rewriteMaxArity)
    modify fun m => m.storeHash (LTerm.word (.node c args)) hash
    let m ← get
    match m.wmemo.find (kboWmemoSlot hash) hash with
    | some e => pure e
    | none => do
      let e ← kboMemoAdd subtree cfg args ⟨cfg.weight c.label, some []⟩
      modify fun m => m.storeWeight hash e
      pure e

/-- The worklist of nodes with the children they have yet to go over. What is left of it
is returned. -/
def kboMemoLoop : ℕ → List (LTerm × List LTerm) → KboM (List (LTerm × List LTerm))
  | 0, stack => pure stack
  | _ + 1, [] => pure []
  | n + 1, (t, []) :: stack => do
    let _ ← kboMemoCombine subtree cfg t
    kboMemoLoop n stack
  | n + 1, (t, .leaf _ :: as) :: stack => kboMemoLoop n ((t, as) :: stack)
  | n + 1, (t, .node c args :: as) :: stack => do
    let m ← get
    match m.thash.find (kboThashSlot (LTerm.word (.node c args))) (LTerm.word (.node c args)) with
    | some _ => kboMemoLoop n ((t, as) :: stack)
    | none => kboMemoLoop n ((.node c args, args) :: (t, as) :: stack)

end Fill

def argsOf : LTerm → List LTerm
  | .leaf _ => []
  | .node _ args => args

/-- `kbo_subtree_memo`; `fuel` bounds how often it calls itself. -/
def kboSubtreeMemo (cfg : KboConfig) : ℕ → LTerm → KboM KboWeight
  | 0, _ => pure ⟨0, some []⟩
  | fuel + 1, t => do
    let m ← get
    match m.lookup t.word with
    | some e => pure e
    | none => do
      let _ ← kboMemoLoop (kboSubtreeMemo cfg fuel) cfg (2 * t.size) [(t, argsOf t)]
      let m ← get
      match m.lookup t.word with
      | some e => pure e
      | none => kboMemoCombine (kboSubtreeMemo cfg fuel) cfg t

def kboSubtreeMemoFast (cfg : KboConfig) (t : LTerm) : KboM KboWeight :=
  kboMemoChild (kboSubtreeMemo cfg t.size) t

def thvmKboTermWeight (cfg : KboConfig) : LTerm → KboM ℕ
  | .leaf _ => pure cfg.varWeight
  | .node c args => do
    let e ← kboSubtreeMemoFast cfg (.node c args)
    pure e.w

/-! ### What the tables should hold -/

mutual

def kboWeigh (cfg : KboConfig) : FTerm → KboWeight
  | .leaf _ => ⟨0, some []⟩
  | .node f args => kboWeighArgs cfg args ⟨cfg.weight f, some []⟩

def kboWeighArgs (cfg : KboConfig) : List FTerm → KboWeight → KboWeight
  | [], acc => acc
  | .leaf (.fvr id) :: as, acc => kboWeighArgs cfg as (acc.addVar cfg id)
  | .leaf (.num _ _) :: as, acc => kboWeighArgs cfg as acc
  | .node f args :: as, acc => kboWeighArgs cfg as ((kboWeigh cfg (.node f args)).addChild acc)

end

end Thvm.Kbo
