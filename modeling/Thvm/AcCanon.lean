import Thvm.AcEquality
import Thvm.TermPositions
import Thvm.FtTerms
import Mathlib.Data.List.Sort

/-!
# The AC canonical form

Which labels are associative and commutative is a bit mask over the labels below 64. In the
canonical form every AC position is flattened into its leaves, which are made canonical
themselves, sorted by structural hash and chained again to the right. Two terms are compared
by their canonical forms.
-/

namespace Thvm.Ac

open Ft (atpTermStructHash)

structure AtpAcInfo where
  acMask : ℕ
  deriving DecidableEq, Repr

/-- `ATP_AC_FLATTEN_CAP`. -/
def flattenCap : ℕ := 64

namespace AtpAcInfo

/-- `atp_ac_is_ac_label`. -/
def isAcLabel (ac : AtpAcInfo) (label : ℕ) : Bool := label < 64 && ac.acMask.testBit label

/-- `atp_ac_is_ac_top`. -/
def isAcTop (ac : AtpAcInfo) : FTerm → Bool
  | .leaf _ => false
  | .node label _ => ac.isAcLabel label

end AtpAcInfo

variable (ac : AtpAcInfo) {label cap n : ℕ} {s t u : FTerm} {args out leaves : List FTerm}

mutual

/-- `atp_ac_flatten_under`: none when the leaves do not fit below the cap. -/
def flattenUnder (topLabel cap : ℕ) : FTerm → List FTerm → Option (List FTerm)
  | .leaf l, out => if cap ≤ out.length then none else some (out ++ [.leaf l])
  | .node label args, out =>
    if label = topLabel then flattenKids topLabel cap args out
    else if cap ≤ out.length then none else some (out ++ [.node label args])

def flattenKids (topLabel cap : ℕ) : List FTerm → List FTerm → Option (List FTerm)
  | [], out => some out
  | kid :: kids, out => (flattenUnder topLabel cap kid out).bind (flattenKids topLabel cap kids)

end

/-- The insertion of `atp_ac_sort_leaves`, in a sorted prefix with its last leaf first. -/
def insertLeaf (sorted : List FTerm) (ki : FTerm) : List FTerm :=
  sorted.orderedInsert (fun a b => atpTermStructHash b ≤ atpTermStructHash a) ki

/-- `atp_ac_sort_leaves`. -/
def sortLeaves (leaves : List FTerm) : List FTerm := (leaves.foldl insertLeaf []).reverse

/-- `atp_ac_build_chain`; its callers have a leaf. -/
def buildChain (label : ℕ) (leaves : List FTerm) : FTerm :=
  match leaves.getLast? with
  | none => .ctr label []
  | some acc => leaves.dropLast.foldr (fun leaf acc => .ctr label [leaf, acc]) acc

variable {topLabel : ℕ}

/-- The leaves when they fit, each behind the ones already there. -/
def Flattens (cap : ℕ) (out leaves : List FTerm) (r : Option (List FTerm)) : Prop :=
  r = if out.length + leaves.length ≤ cap then some (out ++ leaves) else none

theorem flattens_leaf (hout : out.length ≤ cap) (t : FTerm) :
    Flattens cap out [t] (if cap ≤ out.length then none else some (out ++ [t])) := by
  unfold Flattens
  rw [List.length_singleton]
  split
  · rw [if_neg (by omega)]
  · rw [if_pos (by omega)]

theorem flattenKids_spec (hout : out.length ≤ cap)
    (ih : ∀ a ∈ args, ∀ out : List FTerm, out.length ≤ cap →
      Flattens cap out (TermTree.spread topLabel a) (flattenUnder topLabel cap a out)) :
    Flattens cap out (args.flatMap (TermTree.spread topLabel))
      (flattenKids topLabel cap args out) := by
  unfold Flattens at ih ⊢
  induction args generalizing out with
  | nil => simp [flattenKids, hout]
  | cons a args ihargs =>
    rw [flattenKids, ih a List.mem_cons_self out hout]
    split
    · next hfit =>
      rw [Option.bind_some, ihargs (by simpa using hfit)
        fun b hb => ih b (List.mem_cons_of_mem a hb)]
      simp [Nat.add_assoc]
    · next hfull =>
      have hlong : ¬ out.length + ((a :: args).flatMap (TermTree.spread topLabel)).length ≤ cap := by
        rw [List.flatMap_cons, List.length_append]
        omega
      rw [if_neg hlong]
      rfl

theorem flattenUnder_spec (hout : out.length ≤ cap) :
    Flattens cap out (TermTree.spread topLabel t) (flattenUnder topLabel cap t out) := by
  induction t using TermTree.induct generalizing out with
  | leaf l => exact flattens_leaf hout _
  | node label args ih =>
    by_cases hlabel : label = topLabel
    · subst hlabel
      rw [TermTree.spread_self, flattenUnder, if_pos rfl]
      exact flattenKids_spec hout fun a ha out hout => ih a ha hout
    · rw [TermTree.spread_of_ne hlabel, flattenUnder, if_neg hlabel]
      exact flattens_leaf hout _

/-- Flattening into an empty array gives the leaves if they fit. -/
theorem flattenUnder_nil : flattenUnder topLabel cap t [] =
    if (TermTree.spread topLabel t).length ≤ cap then some (TermTree.spread topLabel t)
    else none := by
  have h : Flattens cap [] (TermTree.spread topLabel t) (flattenUnder topLabel cap t []) :=
    flattenUnder_spec (Nat.zero_le cap)
  unfold Flattens at h
  simpa using h

theorem eq_spread (h : flattenUnder topLabel cap t [] = some leaves) :
    leaves = TermTree.spread topLabel t := by
  rw [flattenUnder_nil] at h
  split at h
  · exact (Option.some.inj h).symm
  · cases h

/-- `atp_ac_canon_rec`. Where no argument changes the source gives the term itself back. -/
def canonRec (ac : AtpAcInfo) : FTerm → FTerm
  | .leaf l => .leaf l
  | .node label args =>
    if ac.isAcLabel label then
      match _hflat : flattenUnder label flattenCap (.node label args) [] with
      | none => .node label args
      | some leaves => buildChain label (sortLeaves (leaves.attach.map fun u => canonRec ac u.1))
    else if rewriteMaxArity < args.length then .node label args
    else .node label (args.attach.map fun a => canonRec ac a.1)
termination_by t => t.size
decreasing_by
  · apply TermTree.size_lt_of_mem_spread
    rw [← eq_spread _hflat]
    exact u.2
  · exact TermTree.size_lt label a.2

/-- `atp_ac_canon`. -/
def atpAcCanon (ac : AtpAcInfo) (t : FTerm) : FTerm := canonRec ac t

/-- `atp_ac_eq`; the table can be missing. -/
def atpAcEq (s t : FTerm) (ac : Option AtpAcInfo) : Bool :=
  if kboEq s t then true
  else match ac with
    | none => false
    | some ac => if ac.acMask = 0 then false else kboEq (atpAcCanon ac s) (atpAcCanon ac t)

/-- `atp_ac_hash`. -/
def atpAcHash (t : FTerm) (ac : Option AtpAcInfo) : ℕ :=
  match ac with
  | none => atpTermStructHash t
  | some ac => if ac.acMask = 0 then atpTermStructHash t else atpTermStructHash (atpAcCanon ac t)

end Thvm.Ac
