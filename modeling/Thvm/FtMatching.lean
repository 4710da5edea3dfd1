import Thvm.FtScratch

/-!
# Matching and unifying flat terms

The matcher walks the cells of the pattern and of the subject in lockstep and takes its
bindings back when it fails; the unifier goes down the arguments of both. Instances are
built cell by cell.
-/

namespace Thvm.Ft

open ThreadedTrees

/-- `AtpFtSubst`: the bindings, and the ids that are bound, the last one first. -/
@[ext] structure AtpFtSubst where
  bind : Bindings
  boundIds : List ℕ
  nodup : boundIds.Nodup
  bound : ∀ id, (bind id).isSome ↔ id ∈ boundIds
  small : ∀ id ∈ boundIds, id < atpftMaxVars

namespace AtpFtSubst

variable (s : AtpFtSubst)

def empty : AtpFtSubst where
  bind := fun _ => none
  boundIds := []
  nodup := List.nodup_nil
  bound := fun _ => by simp
  small := fun _ h => nomatch h

def wm : ℕ := s.boundIds.length

/-- `ft_unify_bind`, and the same three lines of `ft_match`. -/
def push (id : ℕ) (p : Addr) (hfree : s.bind id = none) (hid : id < atpftMaxVars) :
    AtpFtSubst where
  bind := Function.update s.bind id (some p)
  boundIds := id :: s.boundIds
  nodup := by
    refine List.nodup_cons.mpr ⟨fun hmem => ?_, s.nodup⟩
    rw [← s.bound, hfree] at hmem
    cases hmem
  bound := by
    intro x
    by_cases hx : x = id
    · subst hx
      simp
    · rw [Function.update_of_ne hx, s.bound, List.mem_cons]
      simp [hx]
  small := by
    intro x hx
    rcases List.mem_cons.mp hx with rfl | hx
    · exact hid
    · exact s.small x hx

/-- The last binding is taken back. -/
def pop : AtpFtSubst :=
  match h : s.boundIds with
  | [] => s
  | id :: ids =>
    { bind := Function.update s.bind id none
      boundIds := ids
      nodup := (List.nodup_cons.mp (h ▸ s.nodup)).2
      bound := by
        intro x
        have hnotin := (List.nodup_cons.mp (h ▸ s.nodup)).1
        by_cases hx : x = id
        · subst hx
          simp [hnotin]
        · rw [Function.update_of_ne hx, s.bound, h, List.mem_cons]
          simp [hx]
      small := fun x hx => s.small x (h ▸ List.mem_cons_of_mem id hx) }

/-- A number of rounds of the loops of `ft_subst_rewind`. -/
def popMany : ℕ → AtpFtSubst → AtpFtSubst
  | 0, s => s
  | n + 1, s => popMany n s.pop

/-- `ft_subst_rewind`. -/
def rewind (wmTarget : ℕ) : AtpFtSubst := popMany (s.wm - wmTarget) s

/-- `ft_subst_reset`. -/
def reset : AtpFtSubst := s.rewind 0

end AtpFtSubst

section Read

variable (m : FtMemory)

/-- The cell behind the last one of a term. -/
def behind (p : Addr) : Option (Option Addr) := do
  let c ← m p
  let e ← m c.fin
  some e.next

/-- What `ft_match` does at a variable of the pattern; the bindings are there unless it
fails. -/
def ftMatchVar (rounds id : ℕ) (sc : Addr) (out : AtpFtSubst) : Option (Option AtpFtSubst) :=
  if hid : id < atpftMaxVars then
    match hbind : out.bind id with
    | none => some (some (out.push id sc hbind hid))
    | some prev => do if ← ftEq m rounds prev sc then some (some out) else some none
  else some none

/-- The loop of `ft_match`. -/
def ftMatchLoop (rounds wmSave : ℕ) (pcEnd : Option Addr) :
    ℕ → Option Addr → Option Addr → AtpFtSubst → Option (Bool × AtpFtSubst)
  | 0, _, _, _ => none
  | n + 1, pc, sc, out =>
    if pc = pcEnd then some (true, out)
    else match sc with
      | none => some (false, out.rewind wmSave)
      | some y => do
        let c ← pc.bind m
        if ftIsVar c then
          match ← ftMatchVar m rounds (ftSym c) y out with
          | none => some (false, out.rewind wmSave)
          | some out => ftMatchLoop rounds wmSave pcEnd n c.next (← behind m y) out
        else
          let d ← m y
          if ftIsVar d ∨ c.data.sym ≠ d.data.sym ∨ c.data.arity ≠ d.data.arity then
            some (false, out.rewind wmSave)
          else ftMatchLoop rounds wmSave pcEnd n c.next d.next out

/-- `ft_match` of two cells. -/
def ftMatch (rounds : ℕ) (pat subj : Addr) (out : AtpFtSubst) : Option (Bool × AtpFtSubst) := do
  ftMatchLoop m rounds out.wm (← behind m pat) rounds (some pat) (some subj) out

/-- The loop of `ft_unify_occurs` over the arguments. -/
def anyKid (g : Addr → Option Bool) : ℕ → Option Addr → Option Bool
  | 0, _ => some false
  | n + 1, c => do
    let q ← c
    if ← g q then some true else anyKid g n (← behind m q)

/-- `ft_unify_occurs`. -/
def ftUnifyOccurs (s : Bindings) (varId : ℕ) : ℕ → Addr → Option Bool
  | 0, _ => none
  | n + 1, t => do
    let t ← ftUnifyWalk m s n t
    let c ← m t
    if ftIsVar c then some (ftSym c == varId)
    else anyKid m (ftUnifyOccurs s varId n) c.data.arity c.next

/-- The binding of a variable to a term that is none. -/
def ftUnifyTo (rounds id : ℕ) (t : Addr) (s : AtpFtSubst) : Option (Bool × AtpFtSubst) :=
  if hid : id < atpftMaxVars then do
    if ← ftUnifyOccurs m s.bind id rounds t then some (false, s)
    else
      match hbind : s.bind id with
      | none => some (true, s.push id t hbind hid)
      | some _ => none
  else some (false, s)

/-- The binding of a variable to another one, without the occurs check. -/
def ftUnifyVars (sid tid : ℕ) (t : Addr) (s : AtpFtSubst) : Option (Bool × AtpFtSubst) :=
  if sid = tid then some (true, s)
  else if hid : sid < atpftMaxVars then
    match hbind : s.bind sid with
    | none => some (true, s.push sid t hbind hid)
    | some _ => none
  else some (false, s)

/-- The loop of `ft_unify` over the arguments. -/
def ftUnifyKids (g : Addr → Addr → AtpFtSubst → Option (Bool × AtpFtSubst)) :
    ℕ → Option Addr → Option Addr → AtpFtSubst → Option (Bool × AtpFtSubst)
  | 0, _, _, s => some (true, s)
  | n + 1, sc, tc, s => do
    let x ← sc
    let y ← tc
    let (ok, s) ← g x y s
    if ok then ftUnifyKids g n (← behind m x) (← behind m y) s else some (false, s)

/-- `ft_unify` after the walks. -/
def ftUnifyAt (rounds : ℕ) (g : Addr → Addr → AtpFtSubst → Option (Bool × AtpFtSubst))
    (x y : Addr) (s : AtpFtSubst) : Option (Bool × AtpFtSubst) :=
  if x = y then some (true, s)
  else do
    let c ← m x
    let d ← m y
    match ftIsVar c, ftIsVar d with
    | true, true => ftUnifyVars (ftSym c) (ftSym d) y s
    | true, false => ftUnifyTo m rounds (ftSym c) y s
    | false, true => ftUnifyTo m rounds (ftSym d) x s
    | false, false =>
      if c.data.sym ≠ d.data.sym then some (false, s)
      else if c.data.arity ≠ d.data.arity then some (false, s)
      else ftUnifyKids m g c.data.arity c.next d.next s

/-- `ft_unify`, over a number of levels. A variable that the walk leads to is not bound. -/
def ftUnify : ℕ → Addr → Addr → AtpFtSubst → Option (Bool × AtpFtSubst)
  | 0, _, _, _ => none
  | n + 1, x, y, s => do
    let x ← ftUnifyWalk m s.bind n x
    let y ← ftUnifyWalk m s.bind n y
    ftUnifyAt m n (ftUnify n) x y s

end Read

section Build

variable (moves : ℕ → Bool) (scratch : Bool)

/-- `ft_deep_copy_rec`, over a number of levels. -/
def ftDeepCopy : ℕ → Addr → AtpFt → Option (Addr × AtpFt)
  | 0, _, _ => none
  | n + 1, src, a => do
    let c ← a.mem src
    if ftIsVar c then ftnewVar moves a (ftSym c) scratch
    else if c.data.arity = 0 then ftnewConst moves a c.data.sym scratch
    else
      let (kids, a) ← buildArgs (ftDeepCopy n) c.data.arity c.next a
      ftnewCtr moves a c.data.sym c.data.arity kids scratch

/-- The loop of `ft_subst_apply` over the arguments, which ends at the first `NULL`. -/
def applyKids (g : Addr → AtpFt → Option (Option Addr × AtpFt)) :
    ℕ → Option Addr → AtpFt → Option (Option (List Addr) × AtpFt)
  | 0, _, a => some (some [], a)
  | n + 1, child, a => do
    let q ← child
    match ← g q a with
    | (none, a) => some (none, a)
    | (some kid, a) =>
      match ← applyKids g n (← behind a.mem q) a with
      | (none, a) => some (none, a)
      | (some kids, a) => some (some (kid :: kids), a)

/-- `ft_subst_apply`, over a number of levels. -/
def ftSubstApply (s : Bindings) : ℕ → Addr → AtpFt → Option (Option Addr × AtpFt)
  | 0, _, _ => none
  | n + 1, tmpl, a => do
    let c ← a.mem tmpl
    if ftIsVar c then
      if atpftMaxVars ≤ ftSym c then some (none, a)
      else match s (ftSym c) with
        | none => some (none, a)
        | some binding =>
          let (p, a) ← ftDeepCopy moves scratch n binding a
          some (some p, a)
    else if c.data.arity = 0 then
      let (p, a) ← ftnewConst moves a c.data.sym scratch
      some (some p, a)
    else
      match ← applyKids (ftSubstApply s n) c.data.arity c.next a with
      | (none, a) => some (none, a)
      | (some kids, a) =>
        let (p, a) ← ftnewCtr moves a c.data.sym c.data.arity kids scratch
        some (some p, a)

end Build

end Thvm.Ft
