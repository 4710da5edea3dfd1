import Mathlib.Data.List.Basic
import Mathlib.Tactic.Common
import Thvm.FirstOrderTerms
import Thvm.Terms

/-!
# Readers of bytes

A reader takes a value off the front of a list of bytes, or fails where the bytes end.
A record is self-delimiting for a reader when what follows the record makes no difference.
-/

namespace Thvm

abbrev Reader (α : Type) := List UInt8 → Option (α × List UInt8)

namespace Reader

variable {α β : Type} {read : Reader α} {bs bs' : List UInt8} {a : α} {b : β}

def pure (a : α) : Reader α := fun bs => some (a, bs)

def bind (read : Reader α) (next : α → Reader β) : Reader β := fun bs =>
  match read bs with
  | some (a, rest) => next a rest
  | none => none

def map (f : α → β) (read : Reader α) : Reader β := read.bind fun a => pure (f a)

/-- The next byte. -/
def byte : Reader UInt8
  | [] => none
  | b :: bs => some (b, bs)

def many (read : Reader α) : ℕ → Reader (List α)
  | 0 => pure []
  | n + 1 => read.bind fun a => (many read n).map (a :: ·)

/-- Takes exactly `bs` and gives `a`, whatever follows. -/
def Takes (read : Reader α) (bs : List UInt8) (a : α) : Prop :=
  ∀ rest, read (bs ++ rest) = some (a, rest)

theorem takes_pure (a : α) : (pure a).Takes [] a := fun _ => rfl

theorem takes_byte (c : UInt8) : byte.Takes [c] c := fun _ => rfl

theorem Takes.bind {next : α → Reader β} (h : read.Takes bs a) (h' : (next a).Takes bs' b) :
    (read.bind next).Takes (bs ++ bs') b := by
  intro rest
  rw [Reader.bind, List.append_assoc, h (bs' ++ rest)]
  exact h' rest

theorem Takes.map (f : α → β) (h : read.Takes bs a) : (read.map f).Takes bs (f a) := by
  intro rest
  rw [Reader.map, Reader.bind, h rest]
  rfl

theorem Takes.all (h : read.Takes bs a) : read bs = some (a, []) := by
  have hnil := h []
  rwa [List.append_nil] at hnil

/-- Records one after the other, each read as `f` says. -/
theorem Takes.many {write : β → List UInt8} {f : β → α} {xs : List β}
    (h : ∀ x ∈ xs, read.Takes (write x) (f x)) :
    (read.many xs.length).Takes (xs.flatMap write) (xs.map f) := by
  induction xs with
  | nil => exact takes_pure _
  | cons x xs ih =>
    have htail := ih fun y hy => h y (List.mem_cons_of_mem _ hy)
    exact (h x List.mem_cons_self).bind (htail.map (f x :: ·))

/-- Whatever is read satisfies `P`. -/
def Gives (read : Reader α) (P : α → Prop) : Prop := ∀ bs a rest, read bs = some (a, rest) → P a

section Gives

variable {P : α → Prop} {Q : β → Prop} {next : α → Reader β}

theorem gives_true : read.Gives fun _ => True := fun _ _ _ _ => trivial

theorem gives_pure (h : P a) : (pure a).Gives P := by
  intro bs a' rest hread
  obtain ⟨rfl, rfl⟩ := Prod.mk.inj (Option.some.inj hread)
  exact h

theorem Gives.bind (h : read.Gives P) (h' : ∀ a, P a → (next a).Gives Q) :
    (read.bind next).Gives Q := by
  intro bs b rest hread
  rw [Reader.bind] at hread
  cases hfirst : read bs with
  | none =>
    rw [hfirst] at hread
    cases hread
  | some r =>
    obtain ⟨a, rest'⟩ := r
    rw [hfirst] at hread
    exact h' a (h bs a rest' hfirst) rest' b rest hread

theorem Gives.map {f : α → β} (h : read.Gives P) (hf : ∀ a, P a → Q (f a)) : (read.map f).Gives Q :=
  h.bind fun a ha => gives_pure (hf a ha)

theorem Gives.many (h : read.Gives P) (n : ℕ) :
    (read.many n).Gives fun as => as.length = n ∧ ∀ a ∈ as, P a := by
  induction n with
  | zero => exact gives_pure ⟨rfl, fun _ ha => nomatch ha⟩
  | succ n ih =>
    refine h.bind fun a ha => ih.map fun as has => ⟨congrArg (· + 1) has.1, ?_⟩
    intro b hb
    rcases List.mem_cons.mp hb with rfl | hb
    · exact ha
    · exact has.2 b hb

end Gives

end Reader

end Thvm

/-!
## Packed critical pairs

A pair of terms as the records of its nodes in preorder, one after the other: a letter,
then numbers of seven bits a byte. A constructor carries its number of arguments, so that no
record needs an end mark.
-/

namespace Thvm

namespace Acp

/-- A word that is neither a constructor nor a first-order leaf; 0 is not a term. -/
structure OtherWord where
  tag : Tag
  ext : BitVec 18
  val : BitVec 38
  tag_ne : tag ≠ .ctr ∧ tag ≠ .num ∧ tag ≠ .fvr
  ne_zero : ¬ (tag = .app ∧ ext = 0 ∧ val = 0)
  deriving DecidableEq

inductive Atom where
  | fvr (id : BitVec 18)
  | num (dtype : BitVec 18) (val : BitVec 38)
  | other (w : OtherWord)
  deriving DecidableEq

/-- Terms as the heap holds them: labels and ids have `EXT_BITS`, values `VAL_BITS`. -/
abbrev CpTerm := TermTree Atom (BitVec 18)

/-! ## The writer -/

/-- Seven bits a byte, the lowest first; the high bit says that more follow. -/
def acpPutVarint (v : ℕ) : List UInt8 :=
  if v < 0x80 then [UInt8.ofNat v] else UInt8.ofNat (v ||| 0x80) :: acpPutVarint (v >>> 7)
decreasing_by
  rw [Nat.shiftRight_eq_div_pow]
  omega

/-- The capacities that doubling goes through, from nothing or from 4096 on. -/
abbrev ScratchCap := {n : ℕ // n = 0 ∨ ∃ k < 20, n = 2 ^ (12 + k)}

/-- The scratch buffer up to the position of the next record, and the nodes counted. -/
structure Scratch where
  bytes : List UInt8
  cap : ℕ
  nodes : ℕ

/-- `while (pos + extra > ncap) ncap *= 2u`. -/
def growCap (need : ℕ) : ℕ → ℕ → Option ℕ
  | 0, _ => none
  | rounds + 1, ncap =>
    if need > ncap then growCap need rounds (ncap * 2 % 2 ^ 32) else some ncap

def acpScratchEnsure (rounds pos extra cap : ℕ) : Option ℕ :=
  if (pos + extra) % 2 ^ 32 ≤ cap then some cap
  else growCap ((pos + extra) % 2 ^ 32) rounds (if cap ≠ 0 then cap else 4096)

/-- The record of a node without those of its arguments, `n` of them. -/
def nodeRecord (label : BitVec 18) (n : ℕ) : List UInt8 :=
  0x43 :: (acpPutVarint label.toNat ++ acpPutVarint (n % 2 ^ 32))

def atomRecord : Atom → List UInt8
  | .num dtype val => 0x4E :: (acpPutVarint dtype.toNat ++ acpPutVarint val.toNat)
  | .fvr id => 0x56 :: acpPutVarint id.toNat
  | .other _ => [0x45]

/-- What is done at every node: count it, make room for 21 bytes, write its record. -/
def putRecord (rounds : ℕ) (record : List UInt8) (s : Scratch) : Option Scratch :=
  (acpScratchEnsure rounds s.bytes.length 21 s.cap).map fun cap =>
    ⟨s.bytes ++ record, cap, (s.nodes + 1) % 2 ^ 32⟩

mutual

def acpPackTerm (rounds : ℕ) : CpTerm → Scratch → Option Scratch
  | .leaf l, s => putRecord rounds (atomRecord l) s
  | .node f args, s => do
    let s ← putRecord rounds (nodeRecord f args.length) s
    acpPackArgs rounds args s

def acpPackArgs (rounds : ℕ) : List CpTerm → Scratch → Option Scratch
  | [], s => some s
  | a :: as, s => do
    let s ← acpPackTerm rounds a s
    acpPackArgs rounds as s

end

/-- The bytes of a pair, how many of them are the left side's, and its nodes on both sides
and on the left one. -/
structure Packed where
  bytes : List UInt8
  lhsLen : ℕ
  nodes : ℕ
  lhsNodes : ℕ
  deriving DecidableEq

def acpPack (rounds cap : ℕ) (lhs rhs : CpTerm) : Option Packed := do
  let s ← acpPackTerm rounds lhs ⟨[], cap, 0⟩
  let s' ← acpPackTerm rounds rhs s
  some ⟨s'.bytes, s.bytes.length, s'.nodes, s.nodes⟩

/-! ## The readers -/

/-- The loop from a value and a shift on. -/
def getVarintFrom : ℕ → ℕ → Reader ℕ
  | _, _, [] => none
  | v, shift, b :: bs =>
    if b &&& 0x80 = 0 then some (v ||| ((b &&& 0x7F).toNat <<< shift) % 2 ^ 64, bs)
    else getVarintFrom (v ||| ((b &&& 0x7F).toNat <<< shift) % 2 ^ 64) (shift + 7) bs

def acpGetVarint : Reader ℕ := getVarintFrom 0 0

/-- A varint that is kept as a `u32`. -/
def getU32 : Reader ℕ := acpGetVarint.map (· % 2 ^ 32)

/-- The arity with the cap of `REWRITE_MAX_ARITY`. -/
def getArity : Reader ℕ :=
  getU32.map fun n => if n > rewriteMaxArity then rewriteMaxArity else n

/-- The nesting of the calls is bounded by `depth`. -/
def unpackTerm : ℕ → Reader CpTerm
  | 0 => fun _ => none
  | depth + 1 => Reader.byte.bind fun disc =>
    if disc = 0x43 then
      getU32.bind fun label => getArity.bind fun n =>
        ((unpackTerm depth).many n).map (.node (BitVec.ofNat 18 label))
    else if disc = 0x4E then
      getU32.bind fun dtype => acpGetVarint.map fun val =>
        .leaf (.num (BitVec.ofNat 18 dtype) (BitVec.ofNat 38 val))
    else getU32.map fun id => .leaf (.fvr (BitVec.ofNat 18 id))

/-- Every call takes a byte, so that there are no more calls than bytes. -/
def acpUnpackTerm : Reader CpTerm := fun bs => unpackTerm bs.length bs

def acpUnpack : Reader (CpTerm × CpTerm) :=
  acpUnpackTerm.bind fun l => acpUnpackTerm.map fun r => (l, r)

def termNodesSkip : ℕ → Reader ℕ
  | 0 => fun _ => none
  | depth + 1 => Reader.byte.bind fun disc =>
    if disc = 0x43 then
      acpGetVarint.bind fun _ => getArity.bind fun n =>
        ((termNodesSkip depth).many n).map fun sizes => (1 + sizes.sum) % 2 ^ 32
    else if disc = 0x4E then
      acpGetVarint.bind fun _ => acpGetVarint.map fun _ => 1
    else acpGetVarint.map fun _ => 1

def acpTermNodesSkip : Reader ℕ := fun bs => termNodesSkip bs.length bs

def acpRhsNodes (buf : List UInt8) : Option ℕ :=
  ((acpTermNodesSkip.bind fun _ => acpTermNodesSkip) buf).map Prod.fst

/-! ## Matching -/

/-- `bindings[id]`, with nothing for 0. -/
abbrev Bindings := ℕ → Option CpTerm

/-- `kbo_eq`, which compares tags, extensions, values and arguments. -/
def kboEq (s t : CpTerm) : Bool := decide (s = t)

/-- What both matchers do at a variable. -/
def bindVar (id : ℕ) (subj : CpTerm) (sub : Bindings) : Bool × Bindings :=
  if id ≥ rewriteMaxVar then (false, sub)
  else
    match sub id with
    | none => (true, Function.update sub id (some subj))
    | some u => (kboEq u subj, sub)

mutual

def thvmMatch : CpTerm → CpTerm → Bindings → Bool × Bindings
  | .leaf (.fvr id), t, sub => bindVar id.toNat t sub
  | .node f as, .node g bs, sub =>
    if f ≠ g then (false, sub)
    else if as.length ≠ bs.length then (false, sub)
    else thvmMatchArgs as bs sub
  | _, _, sub => (false, sub)

def thvmMatchArgs : List CpTerm → List CpTerm → Bindings → Bool × Bindings
  | a :: as, t :: ts, sub =>
    let (ok, sub) := thvmMatch a t sub
    if ok then thvmMatchArgs as ts sub else (false, sub)
  | _, _, sub => (true, sub)

end

/-- `thvm_match(plhs, qlhs, &s) && thvm_match(prhs, qrhs, &s)`. -/
def thvmMatchPair (plhs prhs qlhs qrhs : CpTerm) (sub : Bindings) : Bool × Bindings :=
  let (ok, sub) := thvmMatch plhs qlhs sub
  if ok then thvmMatch prhs qrhs sub else (false, sub)

/-- The label and the arity of a constructor, not capped. -/
def nodeHead : Reader (ℕ × ℕ) := getU32.bind fun label => getU32.map fun n => (label, n)

mutual

/-- The bytes behind the pattern only count when the match succeeds. -/
def acpMatchTerm : CpTerm → Bindings → Reader (Bool × Bindings)
  | subj, sub, bs =>
    match Reader.byte bs with
    | none => none
    | some (disc, bs) =>
      if disc = 0x43 then
        match nodeHead bs with
        | none => none
        | some ((label, n), bs) =>
          match subj with
          | .leaf _ => some ((false, sub), bs)
          | .node f args =>
            if f.toNat ≠ label then some ((false, sub), bs)
            else if args.length ≠ n then some ((false, sub), bs)
            else acpMatchArgs args sub bs
      else if disc = 0x56 then (getU32.map fun id => bindVar id subj sub) bs
      else some ((false, sub), bs)

def acpMatchArgs : List CpTerm → Bindings → Reader (Bool × Bindings)
  | [], sub, bs => some ((true, sub), bs)
  | a :: as, sub, bs =>
    match acpMatchTerm a sub bs with
    | none => none
    | some ((ok, sub), bs) => if ok then acpMatchArgs as sub bs else some ((false, sub), bs)

end

def acpMatchPair (packed : List UInt8) (qlhs qrhs : CpTerm) (sub : Bindings) :
    Option (Bool × Bindings) :=
  match acpMatchTerm qlhs sub packed with
  | none => none
  | some ((ok, sub), bs) =>
    if ok then (acpMatchTerm qrhs sub bs).map Prod.fst else some (false, sub)

end Acp

end Thvm
