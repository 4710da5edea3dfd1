import Thvm.FlatTerms
import Thvm.OrderLoops
import Thvm.TermWeights

/-!
# `thvm_kbo`

The Knuth-Bendix ordering three times: the recursion of the textbook, the comparison in
linear time that threads a balance of weights and variables through one traversal, and
the same over flat arrays. A write behind the list of touched variables is a fault.
-/

namespace Thvm.Kbo

open MemoTables

/-! ### The recursion of the textbook -/

/-- The weight and the counts of one side less those of the other. -/
structure Balance where
  wb : ℤ
  bal : ℕ → ℤ

mutual

def kboAddto (cfg : KboConfig) (sign : ℤ) : LTerm → Balance → Balance
  | .leaf (.fvr id), b =>
    { wb := b.wb + sign * cfg.varWeight
      bal := if id < kboMaxVar then Function.update b.bal id (b.bal id + sign) else b.bal }
  | .leaf (.num _ _), b => b
  | .node c args, b =>
    kboAddtoArgs cfg sign args { b with wb := b.wb + sign * cfg.weight c.label }

def kboAddtoArgs (cfg : KboConfig) (sign : ℤ) : List LTerm → Balance → Balance
  | [], b => b
  | a :: as, b => kboAddtoArgs cfg sign as (kboAddto cfg sign a b)

end

/-- `s` wholly on one side, `t` wholly on the other. -/
def kboDiverge (cfg : KboConfig) (s t : LTerm) (b : Balance) : Bool × Balance :=
  (false, kboAddto cfg (-1) t (kboAddto cfg 1 s b))

mutual

def kboDiff (cfg : KboConfig) : LTerm → LTerm → Balance → Bool × Balance
  | .leaf l, t, b =>
    if LTerm.word (.leaf l) = t.word then (true, b) else
      match t with
      | .leaf l' => if l = l' then (true, b) else kboDiverge cfg (.leaf l) (.leaf l') b
      | .node d bs => kboDiverge cfg (.leaf l) (.node d bs) b
  | .node c as, t, b =>
    if LTerm.word (.node c as) = t.word then (true, b) else
      match t with
      | .leaf l' => kboDiverge cfg (.node c as) (.leaf l') b
      | .node d bs =>
        if c.label = d.label ∧ as.length = bs.length then kboDiffArgs cfg as bs b
        else kboDiverge cfg (.node c as) (.node d bs) b

def kboDiffArgs (cfg : KboConfig) : List LTerm → List LTerm → Balance → Bool × Balance
  | a :: as, b :: bs, bal =>
    let head := kboDiff cfg a b bal
    let tail := kboDiffArgs cfg as bs head.2
    (head.1 && tail.1, tail.2)
  | _, _, bal => (true, bal)

end

/-- A verdict on arguments, as far as the balance allows it. -/
def kboGate (sDom tDom : Bool) : Cmp → Cmp
  | .eq => .eq
  | .gt => if sDom then .gt else .un
  | .lt => if tDom then .lt else .un
  | _ => .un

mutual

def kboRec (cfg : KboConfig) : LTerm → LTerm → Cmp
  | s, t =>
    let diff := kboDiff cfg s t ⟨0, fun _ => 0⟩
    let sDom := (List.range kboMaxVar).all fun i => 0 ≤ diff.2.bal i
    let tDom := (List.range kboMaxVar).all fun i => diff.2.bal i ≤ 0
    if diff.1 then .eq
    else if !sDom && !tDom then .un
    else if 0 < diff.2.wb then if sDom then .gt else .un
    else if diff.2.wb < 0 then if tDom then .lt else .un
    else
      match s with
      | .leaf _ => .un
      | .node c as =>
        match t with
        | .leaf _ => .un
        | .node d bs =>
          if cfg.prec d.label < cfg.prec c.label then if sDom then .gt else .un
          else if cfg.prec c.label < cfg.prec d.label then if tDom then .lt else .un
          else if as.length ≠ bs.length then .un
          else kboGate sDom tDom (kboRecArgs cfg as bs)

/-- The first verdict that is not `eq`. -/
def kboRecArgs (cfg : KboConfig) : List LTerm → List LTerm → Cmp
  | a :: as, b :: bs =>
    match kboRec cfg a b with
    | .eq => kboRecArgs cfg as bs
    | c => c
  | _, _ => .eq

end

def thvmKboNaive (cfg : KboConfig) (s t : LTerm) : Cmp := kboRec cfg s t

/-! ### The balance of the linear comparison -/

/-- `KboLin` without its configuration. -/
structure KboLin where
  bal : ℕ → ℤ
  touched : List ℕ
  fault : Bool

namespace KboLin

def clear (fault : Bool) : KboLin := ⟨fun _ => 0, [], fault⟩

/-- `kbo_bump`: an id is put down each time its balance leaves zero, and the list of
these has room for `KBO_MAX_VAR`. -/
def bump (id : ℕ) (delta : ℤ) (st : KboLin) : KboLin :=
  if kboMaxVar ≤ id then st
  else
    { bal := Function.update st.bal id (st.bal id + delta)
      touched := if st.bal id = 0 then st.touched ++ [id] else st.touched
      fault := st.fault || (st.bal id = 0 && kboMaxVar ≤ st.touched.length) }

end KboLin

/-- The verdict so far with a balance that is not zero. -/
def kboDecide (erg : Cmp) (v : ℤ) : Cmp :=
  match erg with
  | .eq => if v < 0 then .lt else .gt
  | .lt => if 0 < v then .un else .lt
  | .gt => if v < 0 then .un else .gt
  | c => c

/-- The loop of `kbo_lin_decide_clear` over the touched ids. -/
def kboDecideLoop : List ℕ → (ℕ → ℤ) → Cmp → Cmp × (ℕ → ℤ)
  | [], bal, erg => (erg, bal)
  | id :: ids, bal, erg =>
    kboDecideLoop ids (Function.update bal id 0)
      (if bal id = 0 then erg else kboDecide erg (bal id))

def kboLinDecideClear (st : KboLin) : Cmp × KboLin :=
  let run := kboDecideLoop st.touched st.bal .eq
  (run.1, ⟨run.2, [], st.fault⟩)

def kboLinClear (st : KboLin) : KboLin :=
  ⟨st.touched.foldl (fun bal id => Function.update bal id 0) st.bal, [], st.fault⟩

/-! ### The linear comparison -/

section Walk

variable {σ : Type} (onVar onSym : ℕ → σ → σ)

/-- A walk over terms from a worklist, the last child first. -/
def kboWalk : ℕ → List LTerm → σ → σ
  | 0, _, x => x
  | _ + 1, [], x => x
  | n + 1, .leaf (.fvr id) :: stack, x => kboWalk n stack (onVar id x)
  | n + 1, .leaf (.num _ _) :: stack, x => kboWalk n stack x
  | n + 1, .node c args :: stack, x => kboWalk n (args.reverse ++ stack) (onSym c.label x)

end Walk

def kboAddvarsWalk (st : KboLin) (t : LTerm) (sign : ℤ) : KboLin :=
  kboWalk (fun id st => st.bump id sign) (fun _ st => st) t.size [t] st

def kboLinAddtoWalk (cfg : KboConfig) (t : LTerm) (sign : ℤ) (x : KboLin × ℤ) : KboLin × ℤ :=
  kboWalk (fun id x => (x.1.bump id sign, x.2 + sign * cfg.varWeight))
    (fun label x => (x.1, x.2 + sign * cfg.weight label)) t.size [t] x

/-- `kbo_lin_addto` on a balance and `phidiff`; `linear` stands for the gates and the flag
that go without the memo. -/
def kboLinAddto (linear : Bool) (cfg : KboConfig) (t : LTerm) (sign : ℤ) (x : KboLin × ℤ) :
    KboM (KboLin × ℤ) :=
  if linear then pure (kboLinAddtoWalk cfg t sign x)
  else
    match t with
    | .leaf (.fvr id) => pure (x.1.bump id sign, x.2 + sign * cfg.varWeight)
    | .leaf (.num _ _) => pure x
    | .node c args => do
      let e ← kboSubtreeMemoFast cfg (.node c args)
      match e.profile with
      | none => pure (kboAddvarsWalk x.1 (.node c args) sign, x.2 + sign * e.w)
      | some p =>
        pure (p.foldl (fun st k => st.bump k.1 (sign * k.2)) x.1, x.2 + sign * e.w)

/-- The pairs of arguments to go on with where two terms match at the root. -/
def kboMatch (s t : LTerm) : Option (List (LTerm × LTerm)) :=
  if s.word = t.word then some []
  else
    match s, t with
    | .leaf l, .leaf l' => if l = l' then some [] else none
    | .node c as, .node d bs =>
      if c.label = d.label ∧ as.length = bs.length then some (as.zip bs) else none
    | _, _ => none

section Linear

variable (linear : Bool) (cfg : KboConfig)

/-- The worklist of `kbo_vortest`. -/
def kboVortestLoop : ℕ → List (LTerm × LTerm) → KboLin × ℤ → Bool →
    KboM ((KboLin × ℤ) × Bool)
  | 0, _, x, ident => pure (x, ident)
  | _ + 1, [], x, ident => pure (x, ident)
  | n + 1, (s, t) :: stack, x, ident =>
    match kboMatch s t with
    | some pairs => kboVortestLoop n (pairs.reverse ++ stack) x ident
    | none => do
      let x ← kboLinAddto linear cfg s 1 x
      let x ← kboLinAddto linear cfg t (-1) x
      kboVortestLoop n stack x false

def kboVortest (s t : LTerm) (st : KboLin) : KboM ((KboLin × ℤ) × Bool) :=
  kboVortestLoop linear cfg s.size [(s, t)] (st, 0) true

def kboMapThrough (varcmp : Cmp) : Cmp → Cmp
  | .eq => .eq
  | .gt => if varcmp = .lt then .un else .gt
  | .lt => if varcmp = .gt then .un else .lt
  | _ => .un

/-- The verdict of weights and variables, if they decide. -/
def kboPhi (varcmp : Cmp) (phidiff : ℤ) : Option Cmp :=
  match varcmp with
  | .gt => if phidiff < 0 then some .un else if 0 < phidiff then some .gt else none
  | .lt => if phidiff < 0 then some .lt else if 0 < phidiff then some .un else none
  | .eq => if phidiff < 0 then some .lt else if 0 < phidiff then some .gt else none
  | _ => some .un

/-- A pair of children with its balance of weights and of variables. -/
structure KboPair where
  s : LTerm
  t : LTerm
  phidiff : ℤ
  varcmp : Cmp

/-- The first children that are not identical. -/
def kboLinLex : List LTerm → List LTerm → KboLin → KboM (Option KboPair × KboLin)
  | a :: as, b :: bs, st => do
    let ((st, phi), ident) ← kboVortest linear cfg a b st
    if ident then kboLinLex as bs (kboLinClear st)
    else
      let clear := kboLinDecideClear st
      pure (some ⟨a, b, phi, clear.1⟩, clear.2)
  | _, _, st => pure (none, st)

/-- The descent along first differing children, with the verdicts of the levels above on
a stack. -/
def kboLinRek : ℕ → KboPair → List Cmp → KboLin → KboM (Cmp × KboLin)
  | 0, _, _, st => pure (.un, st)
  | n + 1, ⟨s, t, phidiff, varcmp⟩, levels, st =>
    let finish (here : Cmp) (st : KboLin) : KboM (Cmp × KboLin) :=
      pure (levels.foldl (fun terminal level => kboMapThrough level terminal) here, st)
    match kboPhi varcmp phidiff with
    | some here => finish here st
    | none =>
      match s, t with
      | .node c as, .node d bs =>
        if cfg.prec d.label < cfg.prec c.label then finish (if varcmp = .lt then .un else .gt) st
        else if cfg.prec c.label < cfg.prec d.label then
          finish (if varcmp = .gt then .un else .lt) st
        else if c.label ≠ d.label then finish .un st
        else if as.length ≠ bs.length then finish .un st
        else do
          let (next, st) ← kboLinLex linear cfg as bs st
          match next with
          | none => finish .eq st
          | some pair => kboLinRek n pair (varcmp :: levels) st
      | _, _ => finish .un st

def kboCompareCore (s t : LTerm) (lin : KboLin) : KboM (Cmp × KboLin) := do
  let ((st, phi), ident) ← kboVortest linear cfg s t { lin with touched := [] }
  if ident then pure (.eq, kboLinClear st)
  else
    let clear := kboLinDecideClear st
    kboLinRek linear cfg s.size ⟨s, t, phi, clear.1⟩ [] clear.2

end Linear

/-! ### The entry points -/

/-- The variables of the module; `lastCfg` is the address of a configuration. -/
structure KboState where
  memos : KboMemos
  lin : KboLin
  lastCfg : ℕ
  persist : Bool

namespace KboState

def start : KboState := ⟨.start, .clear false, 0, false⟩

def invalidate (st : KboState) : KboState := { st with memos := st.memos.invalidate }

def setPersist (on : Bool) (st : KboState) : KboState := { st with persist := on }

/-- The result of a comparison: none when it wrote behind the touched ids. -/
def finish (st : KboState) (run : (Cmp × KboLin) × KboMemos) : Option Cmp × KboState :=
  (if run.1.2.fault then none else some run.1.1, { st with memos := run.2, lin := run.1.2 })

end KboState

/-- The tables at the start of a call. -/
def kboEnter (addr : ℕ) (st : KboState) : KboState :=
  if st.persist then
    if addr ≠ st.lastCfg then { st with lastCfg := addr }.invalidate else st
  else st.invalidate

/-- `linear` stands for `kbo_memo_free_gate`. -/
def thvmKbo (linear : Bool) (addr : ℕ) (cfg : KboConfig) (s t : LTerm) (st₀ : KboState) :
    Option Cmp × KboState :=
  let st := kboEnter addr st₀
  st.finish ((kboCompareCore linear cfg s t st.lin).run st.memos)

def thvmKboNomemo (cfg : KboConfig) (s t : LTerm) (st : KboState) : Option Cmp × KboState :=
  st.finish ((kboCompareCore true cfg s t st.lin).run st.memos)

/-! ### Flat arrays -/

section Flat

open Thvm.Flat

def KboConfig.flatWeights (cfg : KboConfig) : Weights :=
  ⟨fun label => toI32 (cfg.weight label), toI32 cfg.varWeight⟩

def kboFlatEncode (cfg : KboConfig) (t : LTerm) : Option (List FlatNode) :=
  encode cfg.flatWeights t 0

/-- One node of the sweep of `kbo_flat_addto`. -/
def kboFlatAdd (sign : ℤ) (x : KboLin × ℤ) (n : FlatNode) : KboLin × ℤ :=
  (if n.sym < 0 then x.1.bump (-n.sym - 1).toNat sign else x.1, x.2 + sign * n.w)

def kboFlatAddto (a : List FlatNode) (pos : ℕ) (sign : ℤ) (x : KboLin × ℤ) : KboLin × ℤ :=
  (slice a pos).foldl (kboFlatAdd sign) x

variable (cfg : KboConfig) (a b : List FlatNode)

section Children

variable (rec : ℕ → ℕ → KboLin × ℤ → (KboLin × ℤ) × Bool)

/-- The loop over the children of two nodes. -/
def kboFlatVortestArgs : List ℕ → List ℕ → KboLin × ℤ → (KboLin × ℤ) × Bool
  | ca :: cas, cb :: cbs, x =>
    let head := rec ca cb x
    let tail := kboFlatVortestArgs cas cbs head.1
    (tail.1, head.2 && tail.2)
  | _, _, x => (x, true)

end Children

/-- `kbo_flat_vortest`; slices with the same bytes are skipped. -/
def kboFlatVortest : ℕ → ℕ → ℕ → KboLin × ℤ → (KboLin × ℤ) × Bool
  | 0, _, _, x => (x, false)
  | n + 1, pa, pb, x =>
    if (nodeAt a pa).sym = (nodeAt b pb).sym ∧ (nodeAt a pa).sym < 0 then (x, true)
    else if (nodeAt a pa).sym = (nodeAt b pb).sym ∧ (nodeAt a pa).sz = (nodeAt b pb).sz then
      if slice a pa = slice b pb then (x, true)
      else kboFlatVortestArgs (kboFlatVortest n) (children a pa) (children b pb) x
    else (kboFlatAddto b pb (-1) (kboFlatAddto a pa 1 x), false)

/-- The first children that are not identical, with their balance. -/
def kboFlatLex (n : ℕ) : List ℕ → List ℕ → KboLin → Option (ℕ × ℕ × ℤ × Cmp) × KboLin
  | ca :: cas, cb :: cbs, st =>
    let run := kboFlatVortest a b n ca cb (st, 0)
    if run.2 then kboFlatLex n cas cbs (kboLinClear run.1.1)
    else
      let clear := kboLinDecideClear run.1.1
      (some (ca, cb, run.1.2, clear.1), clear.2)
  | _, _, st => (none, st)

def kboFlatRek : ℕ → ℕ → ℕ → ℤ → Cmp → KboLin → Cmp × KboLin
  | 0, _, _, _, _, st => (.un, st)
  | n + 1, pa, pb, phidiff, varcmp, st =>
    match kboPhi varcmp phidiff with
    | some here => (here, st)
    | none =>
      let la := (nodeAt a pa).sym
      let lb := (nodeAt b pb).sym
      if la < 0 ∨ lb < 0 then (.un, st)
      else if cfg.prec lb.toNat < cfg.prec la.toNat then (if varcmp = .lt then .un else .gt, st)
      else if cfg.prec la.toNat < cfg.prec lb.toNat then (if varcmp = .gt then .un else .lt, st)
      else if la ≠ lb then (.un, st)
      else
        let run := kboFlatLex a b n (children a pa) (children b pb) st
        match run.1 with
        | none => (.eq, run.2)
        | some (ca, cb, phi, cvar) =>
          let inner := kboFlatRek n ca cb phi cvar run.2
          (kboMapThrough varcmp inner.1, inner.2)

def thvmKboFlatSlice (lin : KboLin) : Cmp × KboLin :=
  let run := kboFlatVortest a b a.length 0 0 ({ lin with touched := [] }, 0)
  if run.2 then (.eq, kboLinClear run.1.1)
  else
    let clear := kboLinDecideClear run.1.1
    kboFlatRek cfg a b a.length 0 0 run.1.2 clear.1 clear.2

end Flat

def thvmKboFlat (linear : Bool) (addr : ℕ) (cfg : KboConfig) (s t : LTerm) (st : KboState) :
    Option Cmp × KboState :=
  match kboFlatEncode cfg s, kboFlatEncode cfg t with
  | some a, some b => st.finish (thvmKboFlatSlice cfg a b st.lin, st.memos)
  | _, _ => thvmKbo linear addr cfg s t st

end Thvm.Kbo
