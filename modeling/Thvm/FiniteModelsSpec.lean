import Thvm.ChoiceTuples
import Thvm.FiniteModels

/-!
# What the search emits

Undoing a binding restores the cells, so that the search only adds to the output. The
leaves it comes to, in their order, do not depend on the bound on their number.
-/

namespace Thvm.Ffmep

open ChoiceTuples

variable {db : FfmepDb} {sv sv' : FfmepSolver} {a a' f : ℕ → ℕ} {c : ℕ} {lits : List ℤ}

/-! ## Undoing -/

def resetCells (cells : List ℕ) (a : ℕ → ℕ) : ℕ → ℕ :=
  cells.foldl (fun a c => Function.update a c unset) a

theorem unwind_append (cells trail : List ℕ) (a : ℕ → ℕ) :
    unwind trail.length (cells ++ trail) a = (trail, resetCells cells a) := by
  induction cells generalizing a with
  | nil =>
    cases trail with
    | nil => rfl
    | cons c trail => exact if_neg (Nat.lt_irrefl _)
  | cons c cells ih =>
    rw [List.cons_append, unwind, if_pos (by rw [List.length_append]; omega), ih]
    rfl

/-- Some free cells have been bound. -/
structure Grown (sv sv' : FfmepSolver) : Prop where
  out : sv'.out = sv.out
  cells : ∃ cells, sv'.trail = cells ++ sv.trail ∧ resetCells cells sv'.assign = sv.assign

theorem Grown.refl (sv : FfmepSolver) : Grown sv sv := ⟨rfl, [], rfl, rfl⟩

theorem Grown.bind (h : Grown sv sv') (hfree : sv'.assign c = unset) (v : ℕ) :
    Grown sv (sv'.bind c v) := by
  obtain ⟨hout, cells, htrail, hreset⟩ := h
  refine ⟨hout, c :: cells, congrArg (c :: ·) htrail, ?_⟩
  have hundo : Function.update (Function.update sv'.assign c v) c unset = sv'.assign := by
    rw [Function.update_idem, ← hfree, Function.update_eq_self]
  exact (congrArg (resetCells cells) hundo).trans hreset

/-- Unbinding leaves the output of a later state and nothing else of it. -/
theorem Grown.unbind (h : Grown sv sv') (out : FfmepOut) :
    ffmepUnbind sv.trail.length { sv' with out := out } = { sv with out := out } := by
  obtain ⟨-, cells, htrail, hreset⟩ := h
  rw [ffmepUnbind, htrail, unwind_append, hreset]

/-! ## Clauses -/

/-- The assignment with the literals of a clause, unless they disagree with it. -/
def merge (db : FfmepDb) : List ℤ → (ℕ → ℕ) → Option (ℕ → ℕ)
  | [], a => some a
  | lit :: lits, a =>
    if a (ffmepLitCell db lit) ≠ unset then
      if a (ffmepLitCell db lit) ≠ ffmepLitVal db lit then none else merge db lits a
    else merge db lits (Function.update a (ffmepLitCell db lit) (ffmepLitVal db lit))

def compatible (db : FfmepDb) (a : ℕ → ℕ) (clause : ℕ) : Bool :=
  (merge db (clauseLits db clause) a).isSome

theorem ffmepScan_spec (h : Grown sv sv') :
    Grown sv (ffmepScan db lits sv').2 ∧
      (ffmepScan db lits sv').1 = (merge db lits sv'.assign).isSome := by
  induction lits generalizing sv' with
  | nil => exact ⟨h, rfl⟩
  | cons lit lits ih =>
    rw [ffmepScan, merge]
    split
    · split
      · exact ⟨h, rfl⟩
      · exact ih h
    · next hfree => exact ih (h.bind (not_not.mp hfree) _)

theorem ffmepClauseCompatible_eq :
    ffmepClauseCompatible db sv c = (compatible db sv.assign c, sv) := by
  obtain ⟨hgrown, hok⟩ := @ffmepScan_spec db sv sv (clauseLits db c) (Grown.refl sv)
  have hsame : { (ffmepScan db (clauseLits db c) sv).2 with out := sv.out } =
      (ffmepScan db (clauseLits db c) sv).2 := by
    rw [← hgrown.out]
  have hunbind := hgrown.unbind sv.out
  rw [hsame] at hunbind
  rw [ffmepClauseCompatible, compatible, ← hok]
  exact congrArg (Prod.mk _) hunbind

theorem ffmepBind_spec (h : Grown sv sv') (ha : merge db lits sv'.assign = some a) :
    Grown sv (lits.foldl (fun sv lit =>
      if sv.assign (ffmepLitCell db lit) = unset then
        sv.bind (ffmepLitCell db lit) (ffmepLitVal db lit)
      else sv) sv') ∧
    (lits.foldl (fun sv lit =>
      if sv.assign (ffmepLitCell db lit) = unset then
        sv.bind (ffmepLitCell db lit) (ffmepLitVal db lit)
      else sv) sv').assign = a := by
  induction lits generalizing sv' with
  | nil => exact ⟨h, Option.some.inj ha⟩
  | cons lit lits ih =>
    rw [merge] at ha
    rw [List.foldl_cons]
    split at ha
    · next hbound =>
      rw [if_neg hbound]
      split at ha
      · cases ha
      · exact ih h ha
    · next hfree =>
      rw [if_pos (not_not.mp hfree)]
      exact ih (h.bind (not_not.mp hfree) _) ha

theorem ffmepBindClause_spec (ha : merge db (clauseLits db c) sv.assign = some a) :
    Grown sv (ffmepBindClause db sv c) ∧ (ffmepBindClause db sv c).assign = a :=
  ffmepBind_spec (Grown.refl sv) ha

/-- The other sets with their compatible clauses. -/
def forward (db : FfmepDb) (a : ℕ → ℕ) (rest : List FfmepRemSet) : List FfmepRemSet :=
  rest.map fun r => ⟨r.set, r.clauses.filter (compatible db a)⟩

theorem ffmepKeep_eq (cs : List ℕ) :
    ffmepKeep db cs sv = (cs.filter (compatible db sv.assign), sv) := by
  induction cs with
  | nil => rfl
  | cons c cs ih =>
    rw [ffmepKeep, ffmepClauseCompatible_eq]
    dsimp only
    rw [ih, List.filter_cons]

theorem ffmepForward_eq (rest : List FfmepRemSet) :
    ffmepForward db rest sv = (forward db sv.assign rest, sv) := by
  induction rest with
  | nil => rfl
  | cons r rest ih =>
    rw [ffmepForward, ffmepKeep_eq]
    dsimp only
    rw [ih]
    rfl

/-! ## Output -/

/-- The rows of the completions of an assignment are pushed. -/
def emitOut (db : FfmepDb) (a : ℕ → ℕ) (o : FfmepOut) : Option FfmepOut :=
  (List.range (ffmepTotal db (freeCells db a))).foldlM (fun o combo =>
    ffmepPush o (ffmepRow db (ffmepFill db (freeCells db a) combo a))) o

theorem ffmepFill_of_notMem {free : List ℕ} (h : c ∉ free) (r : ℕ) :
    ffmepFill db free r a c = a c := by
  induction free generalizing r a with
  | nil => rfl
  | cons d free ih =>
    rw [List.mem_cons, not_or] at h
    rw [ffmepFill, ih h.2, Function.update_of_ne h.1]

theorem map_ffmepFill {free : List ℕ} (h : free.Nodup) (r : ℕ) :
    free.map (ffmepFill db free r a) = digits db.k free.length r := by
  induction free generalizing r a with
  | nil => rfl
  | cons d free ih =>
    obtain ⟨hd, hfree⟩ := List.nodup_cons.mp h
    rw [List.map_cons, List.length_cons, digits, ffmepFill, ih hfree,
      ffmepFill_of_notMem hd, Function.update_self]

/-- Filling depends on the other cells only. -/
theorem ffmepFill_congr {free : List ℕ} (h : ∀ c, c ∉ free → a c = a' c) (r : ℕ) :
    ffmepFill db free r a = ffmepFill db free r a' := by
  induction free generalizing r a a' with
  | nil => exact funext fun c => h c List.not_mem_nil
  | cons d free ih =>
    rw [ffmepFill, ffmepFill]
    refine ih (fun c hc => ?_) _
    by_cases hcd : c = d
    · rw [hcd, Function.update_self, Function.update_self]
    · rw [Function.update_of_ne hcd, Function.update_of_ne hcd]
      exact h c (by rw [List.mem_cons, not_or]; exact ⟨hcd, hc⟩)

theorem resetCells_apply (cells : List ℕ) (a : ℕ → ℕ) (c : ℕ) :
    resetCells cells a c = if c ∈ cells then unset else a c := by
  induction cells generalizing a with
  | nil => rfl
  | cons d cells ih =>
    rw [resetCells, List.foldl_cons]
    refine (ih _).trans ?_
    by_cases hc : c ∈ cells
    · rw [if_pos hc, if_pos (List.mem_cons_of_mem d hc)]
    · rw [if_neg hc, Function.update_apply]
      by_cases hd : c = d
      · rw [if_pos hd, if_pos (hd ▸ List.mem_cons_self)]
      · rw [if_neg hd, if_neg (by rw [List.mem_cons, not_or]; exact ⟨hd, hc⟩)]

theorem mem_freeCells : c ∈ freeCells db a ↔ c < db.ncells ∧ a c = unset := by
  simp [freeCells]

theorem freeCells_nodup (db : FfmepDb) (a : ℕ → ℕ) : (freeCells db a).Nodup :=
  List.nodup_range.filter _

/-- Emitting adds rows; the free cells are free again afterwards. -/
theorem ffmepEmitModels_eq :
    ffmepEmitModels db sv =
      (emitOut db sv.assign sv.out).map fun o => { sv with out := o } := by
  have hfold : ∀ (combos : List ℕ) (s : FfmepSolver), s.trail = sv.trail →
      (∀ c, c ∉ freeCells db sv.assign → s.assign c = sv.assign c) →
      ((combos.foldlM (fun (sv' : FfmepSolver) combo => do
        let assign := ffmepFill db (freeCells db sv.assign) combo sv'.assign
        let out ← ffmepPush sv'.out (ffmepRow db assign)
        some { sv' with assign := assign, out := out }) s).bind fun (sv' : FfmepSolver) =>
          some { sv' with assign := resetCells (freeCells db sv.assign) sv'.assign }) =
      (combos.foldlM (fun o combo => ffmepPush o
        (ffmepRow db (ffmepFill db (freeCells db sv.assign) combo sv.assign))) s.out).map
          fun o => { sv with out := o } := by
    intro combos
    induction combos with
    | nil =>
      intro s htrail hassign
      have hreset : resetCells (freeCells db sv.assign) s.assign = sv.assign := by
        funext c
        rw [resetCells_apply]
        split
        · next hc => exact (mem_freeCells.mp hc).2.symm
        · next hc => exact hassign c hc
      rw [List.foldlM_nil, List.foldlM_nil]
      show some _ = some _
      rw [hreset, ← htrail]
    | cons combo combos ih =>
      intro s htrail hassign
      rw [List.foldlM_cons, List.foldlM_cons, ffmepFill_congr hassign]
      dsimp only
      cases hpush : ffmepPush s.out
          (ffmepRow db (ffmepFill db (freeCells db sv.assign) combo sv.assign)) with
      | none => rfl
      | some o =>
        exact ih { s with
            assign := ffmepFill db (freeCells db sv.assign) combo sv.assign
            out := o } htrail fun c hc => ffmepFill_of_notMem hc combo
  exact hfold _ sv rfl fun c _ => rfl

/-! ## Leaves -/

/-- The leaves of the search: the choices on the way to each, and its assignment. -/
def leaves (db : FfmepDb) : ℕ → List FfmepRemSet → (ℕ → ℕ) → List (List (ℕ × ℕ) × (ℕ → ℕ))
  | 0, _, a => [([], a)]
  | n + 1, rem, a =>
    let pick := ffmepPick db rem
    (rem.getD pick ⟨0, []⟩).clauses.flatMap fun c =>
      match merge db (clauseLits db c) a with
      | none => []
      | some a' => (leaves db n (forward db a' (rem.eraseIdx pick)) a').map fun p =>
        (((rem.getD pick ⟨0, []⟩).set, c) :: p.1, p.2)

/-- The leaves below one clause of a set. -/
def clauseLeaves (db : FfmepDb) (n : ℕ) (rest : List FfmepRemSet) (a : ℕ → ℕ) (set c : ℕ) :
    List (List (ℕ × ℕ) × (ℕ → ℕ)) :=
  match merge db (clauseLits db c) a with
  | none => []
  | some a' => (leaves db n (forward db a' rest) a').map fun p => ((set, c) :: p.1, p.2)

def emitLeaves (db : FfmepDb) (ps : List (List (ℕ × ℕ) × (ℕ → ℕ))) (o : FfmepOut) :
    Option FfmepOut := ps.foldlM (fun o p => emitOut db p.2 o) o

theorem emitLeaves_append (ps qs : List (List (ℕ × ℕ) × (ℕ → ℕ))) (o : FfmepOut) :
    emitLeaves db (ps ++ qs) o = (emitLeaves db ps o).bind (emitLeaves db qs) :=
  List.foldlM_append

theorem emitLeaves_map (g : List (ℕ × ℕ) → List (ℕ × ℕ)) (ps : List (List (ℕ × ℕ) × (ℕ → ℕ)))
    (o : FfmepOut) : emitLeaves db (ps.map fun p => (g p.1, p.2)) o = emitLeaves db ps o := by
  induction ps generalizing o with
  | nil => rfl
  | cons p ps ih =>
    rw [List.map_cons, emitLeaves, List.foldlM_cons, emitLeaves, List.foldlM_cons]
    exact congrArg _ (funext ih)

theorem upTo_map {α β : Type} (g : α → β) (b : ℤ) (l : List α) :
    upTo b (l.map g) = (upTo b l).map g := by
  unfold upTo
  split
  · rfl
  · rw [List.map_take]

/-- What a call returns that starts in `sv` and comes to the leaves `ps`. -/
def emitted (db : FfmepDb) (sv : FfmepSolver) (produced : ℤ)
    (ps : List (List (ℕ × ℕ) × (ℕ → ℕ))) : Option (FfmepSolver × ℤ) :=
  (emitLeaves db ps sv.out).map fun o => ({ sv with out := o }, produced + ps.length)

/-- The part of the budget that is left. -/
def left (budget produced : ℤ) : ℤ := if budget < 0 then -1 else budget - produced

/-- The leaves beyond the first ones get what is left of the budget. -/
theorem emitted_append {budget produced : ℤ} (h : budget < 0 ∨ produced ≤ budget)
    (here there : List (List (ℕ × ℕ) × (ℕ → ℕ))) :
    emitted db sv produced (upTo (left budget produced) (here ++ there)) =
      (emitLeaves db (upTo (left budget produced) here) sv.out).bind fun o =>
        emitted db { sv with out := o } (produced + (upTo (left budget produced) here).length)
          (upTo (left budget (produced + (upTo (left budget produced) here).length)) there) := by
  have happ : upTo (left budget produced) (here ++ there) =
      upTo (left budget produced) here ++
        upTo (left budget (produced + (upTo (left budget produced) here).length)) there := by
    unfold left
    split
    · rw [upTo_neg (by omega), upTo_neg (by omega), upTo_neg (by omega)]
    · rw [upTo_append (by omega), Int.sub_sub]
  rw [happ, emitted, emitLeaves_append]
  cases emitLeaves db (upTo (left budget produced) here) sv.out with
  | none => rfl
  | some o =>
    rw [List.length_append, Int.natCast_add, ← Int.add_assoc]
    rfl

theorem ffmepTry_eq {n : ℕ} {budget : ℤ} {rest : List FfmepRemSet} (set : ℕ)
    (ih : ∀ rem b s, ffmepPrune db n rem b s = emitted db s 0 (upTo b (leaves db n rem s.assign)))
    (cs : List ℕ) (produced : ℤ) (h : budget < 0 ∨ produced ≤ budget) :
    ffmepTry db (ffmepPrune db n) rest budget cs produced sv =
      emitted db sv produced (upTo (left budget produced)
        (cs.flatMap (clauseLeaves db n rest sv.assign set))) := by
  induction cs generalizing produced sv with
  | nil =>
    rw [List.flatMap_nil, upTo_nil]
    exact congrArg some (Prod.ext rfl (Int.add_zero produced).symm)
  | cons c cs ihcs =>
    rw [ffmepTry, ffmepClauseCompatible_eq, List.flatMap_cons]
    dsimp only
    cases hmerge : merge db (clauseLits db c) sv.assign with
    | none =>
      have hno : compatible db sv.assign c = false := by rw [compatible, hmerge, Option.isSome_none]
      rw [hno, ihcs produced h, clauseLeaves, hmerge, List.nil_append]
      rfl
    | some a =>
      have hok : compatible db sv.assign c = true := by rw [compatible, hmerge, Option.isSome_some]
      obtain ⟨hgrown, hassign⟩ := ffmepBindClause_spec hmerge
      rw [hok, if_neg (by simp), ffmepForward_eq, hassign]
      dsimp only
      have hleft : (if budget < 0 then -1 else budget - produced) = left budget produced := rfl
      rw [ih, hassign, emitted, hgrown.out, clauseLeaves, hmerge, hleft]
      dsimp only
      have hsame : emitLeaves db (upTo (left budget produced)
          ((leaves db n (forward db a rest) a).map fun p => ((set, c) :: p.1, p.2))) sv.out =
          emitLeaves db (upTo (left budget produced) (leaves db n (forward db a rest) a)) sv.out := by
        rw [upTo_map]
        exact emitLeaves_map _ _ _
      have hlen : (upTo (left budget produced)
          ((leaves db n (forward db a rest) a).map fun p => ((set, c) :: p.1, p.2))).length =
          (upTo (left budget produced) (leaves db n (forward db a rest) a)).length := by
        rw [upTo_map, List.length_map]
      generalize (leaves db n (forward db a rest) a).map
        (fun p => ((set, c) :: p.1, p.2)) = here at hsame hlen ⊢
      rw [emitted_append h, hsame]
      cases emitLeaves db (upTo (left budget produced) (leaves db n (forward db a rest) a))
        sv.out with
      | none => rfl
      | some o =>
        have hunbind := hgrown.unbind o
        have hbound : budget < 0 ∨
            produced + (upTo (left budget produced) here).length ≤ budget := by
          by_cases hneg : budget < 0
          · exact .inl hneg
          · have := length_upTo_le (l := here) (b := left budget produced)
              (by rw [left, if_neg hneg]; omega)
            rw [left, if_neg hneg] at this
            exact .inr (by rw [left, if_neg hneg]; omega)
        rw [← hlen]
        show (if 0 ≤ budget ∧ budget ≤ produced +
            (0 + ((upTo (left budget produced) here).length : ℤ)) then
          some (ffmepUnbind sv.trail.length { ffmepBindClause db sv c with out := o }, _)
          else ffmepTry db (ffmepPrune db n) rest budget cs _
            (ffmepUnbind sv.trail.length { ffmepBindClause db sv c with out := o })) = _
        rw [hunbind, Int.zero_add]
        dsimp only [Option.bind_some]
        split
        · next hstop =>
          have hnone : left budget (produced + (upTo (left budget produced) here).length) = 0 := by
            generalize ((upTo (left budget produced) here).length : ℤ) = len at hstop hbound ⊢
            unfold left
            split <;> omega
          rw [hnone, upTo_zero]
          exact congrArg some (Prod.ext rfl (Int.add_zero _).symm)
        · exact ihcs _ hbound

theorem ffmepPrune_eq (n : ℕ) (rem : List FfmepRemSet) (budget : ℤ) (sv : FfmepSolver) :
    ffmepPrune db n rem budget sv = emitted db sv 0 (upTo budget (leaves db n rem sv.assign)) := by
  induction n generalizing rem budget sv with
  | zero =>
    rw [ffmepPrune]
    by_cases hzero : budget = 0
    · rw [if_pos hzero, hzero, upTo_zero]
      rfl
    · rw [if_neg hzero, ffmepEmitModels_eq]
      have hone : upTo budget (leaves db 0 rem sv.assign) = [([], sv.assign)] := by
        rw [upTo]
        split
        · rfl
        · obtain ⟨m, hm⟩ := Nat.exists_eq_succ_of_ne_zero (n := budget.toNat) (by omega)
          rw [hm, leaves, List.take_succ_cons, List.take_nil]
      rw [hone, emitted, emitLeaves, List.foldlM_cons]
      cases emitOut db sv.assign sv.out <;> rfl
  | succ n ih =>
    rw [ffmepPrune]
    by_cases hzero : budget = 0
    · rw [if_pos hzero, hzero, upTo_zero]
      rfl
    · rw [if_neg hzero]
      dsimp only
      rw [ffmepTry_eq (rem.getD (ffmepPick db rem) ⟨0, []⟩).set (fun rem b s => ih rem b s) _ 0
        (by omega)]
      have hleft : left budget 0 = budget ∨ (budget < 0 ∧ left budget 0 < 0) := by
        unfold left
        split <;> omega
      rcases hleft with hleft | ⟨hneg, hleft⟩
      · rw [hleft]
        rfl
      · rw [upTo_neg hleft, upTo_neg hneg]
        rfl

end Thvm.Ffmep
