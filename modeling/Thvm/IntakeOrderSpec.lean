import Mathlib.Order.Compare
import Mathlib.Data.List.Lex
import Mathlib.Tactic.Abel
import Thvm.AddingUp
import Thvm.IntakeOrder

/-!
# The order of the axioms does not depend on the order in which they are given

Every column of the statistics adds up amounts of single terms, the symbols that occur get
places of their own, and the comparison of two axioms is that of two lists of numbers.
-/

namespace Thvm.Atp.WmIntake

open AddingUp BubbleSorting
open Prec (waldMaxSymbols)
open CpQueue (setCol)

variable {st : AtpWmiStats} {eqs eqs' goals goals' : List Equation} {ar : ℕ → ℕ}

/-- A term of variables and of symbols of the signature, each with its arity. -/
structure OverSignature (ar : ℕ → ℕ) (t : FTerm) : Prop where
  noNum : ∀ d v, Leaf.num d v ∉ t.leaves
  symbols : t.Every fun f n => f < waldMaxSymbols ∧ n = ar f

theorem OverSignature.arg {f : ℕ} {args : List FTerm} (h : OverSignature ar (.node f args))
    {a : FTerm} (ha : a ∈ args) : OverSignature ar a where
  noNum d v hd := h.noNum d v (TermTree.mem_leaves_node.mpr ⟨a, ha, hd⟩)
  symbols := (TermTree.every_node.mp h.symbols).2 a ha

theorem OverSignature.node {f : ℕ} {args : List FTerm} (h : OverSignature ar (.node f args)) :
    f < waldMaxSymbols ∧ args.length = ar f := (TermTree.every_node.mp h.symbols).1

/-- Both sides are over the signature. -/
def Signed (ar : ℕ → ℕ) (es : List Equation) : Prop :=
  ∀ e ∈ es, OverSignature ar e.1 ∧ OverSignature ar e.2

/-! ## The occurrences -/

mutual

/-- The symbols of a term with the numbers of their arguments. -/
def heads : FTerm → List (ℕ × ℕ)
  | .leaf _ => []
  | .node f args => (f, args.length) :: headsArgs args

def headsArgs : List FTerm → List (ℕ × ℕ)
  | [] => []
  | a :: as => heads a ++ headsArgs as

end

def register (reg : Registry) (h : ℕ × ℕ) : Registry := reg.register h.1 h.2

def count (field : Column) (h : ℕ × ℕ) : Column := book h.1 1 field

theorem atpWmiOccArgs_eq {args : List FTerm} (h : ∀ a ∈ args, ∀ reg field,
      atpWmiOcc a (reg, field) = ((heads a).foldl register reg, (heads a).foldl count field))
    (reg : Registry) (field : Column) : atpWmiOccArgs args (reg, field) =
      ((headsArgs args).foldl register reg, (headsArgs args).foldl count field) := by
  induction args generalizing reg field with
  | nil => rfl
  | cons a as ih =>
    rw [atpWmiOccArgs, h a List.mem_cons_self, ih fun b hb => h b (List.mem_cons_of_mem a hb),
      headsArgs, List.foldl_append, List.foldl_append]

theorem atpWmiOcc_eq (t : FTerm) (reg : Registry) (field : Column) :
    atpWmiOcc t (reg, field) = ((heads t).foldl register reg, (heads t).foldl count field) := by
  induction t using TermTree.induct generalizing reg field with
  | leaf l => rfl
  | node f args ih =>
    rw [atpWmiOcc, atpWmiOccArgs_eq ih, heads, List.foldl_cons, List.foldl_cons]
    rfl

theorem book_adds (f : ℕ) (v : U32) : Adds (book f v) := by
  unfold book
  exact .ite (.single f v) .id

/-! ## The positions and the contexts of the parents -/

theorem atpWmiPos_adds (position : U32) (depth : ℕ) (t : FTerm) :
    Adds (atpWmiPos position depth t) := by
  induction t using TermTree.induct generalizing position depth with
  | leaf l => exact .id
  | node f args ih =>
    have hargs (i) : Adds (atpWmiPosArgs position depth i args) := by
      clear * - ih
      induction args generalizing i with
      | nil => exact .id
      | cons a as iha =>
        exact (ih a List.mem_cons_self _ _).comp
          (iha (fun b hb => ih b (List.mem_cons_of_mem a hb)) (i + 1))
    exact .ite .id ((book_adds f position).comp (hargs 1))

theorem atpWmiFinale_adds (st : AtpWmiStats) (vater : U32) (t : FTerm) :
    Adds (atpWmiFinale st vater t) := by
  induction t using TermTree.induct generalizing vater with
  | leaf l => exact .id
  | node f args ih =>
    have hargs (v2) : Adds (atpWmiFinaleArgs st v2 args) := by
      clear * - ih
      induction args with
      | nil => exact .id
      | cons a as iha =>
        exact (ih a List.mem_cons_self v2).comp
          (iha fun b hb => ih b (List.mem_cons_of_mem a hb))
    exact (hargs _).comp (book_adds f vater)

/-! ## The statistics -/

def pairHeads (e : Equation) : List (ℕ × ℕ) := heads e.1 ++ heads e.2

def posPair (e : Equation) (field : Column) : Column :=
  atpWmiPos 1 0 e.2 (atpWmiPos 1 0 e.1 field)

theorem posPair_adds (e : Equation) : Adds (posPair e) :=
  (atpWmiPos_adds 1 0 e.2).comp (atpWmiPos_adds 1 0 e.1)

theorem finalePair_adds (st : AtpWmiStats) (e : Equation) :
    Adds fun field => finalePair st field e :=
  (atpWmiFinale_adds st 0 e.2).comp (atpWmiFinale_adds st 0 e.1)

theorem foldl_occPos (es : List Equation) (reg : Registry) (side : SideStats) :
    es.foldl occPos (reg, side) = ((es.flatMap pairHeads).foldl register reg,
      { side with
        occ := (es.flatMap pairHeads).foldl count side.occ
        pos := es.foldl (fun field e => posPair e field) side.pos }) := by
  induction es generalizing reg side with
  | nil => rfl
  | cons e es ih =>
    have hstep : occPos (reg, side) e = ((pairHeads e).foldl register reg,
        { side with occ := (pairHeads e).foldl count side.occ, pos := posPair e side.pos }) := by
      simp only [occPos, atpWmiOcc_eq, pairHeads, List.foldl_append, posPair]
    rw [List.foldl_cons, hstep, ih, List.flatMap_cons, List.foldl_append, List.foldl_append,
      List.foldl_cons]

theorem heads_signed {t : FTerm} (h : OverSignature ar t) : ∀ x ∈ heads t, x.2 = ar x.1 := by
  induction t using TermTree.induct with
  | leaf l => exact fun x hx => nomatch hx
  | node f args ih =>
    have hargs : ∀ x ∈ headsArgs args, x.2 = ar x.1 := by
      have harg (a) (ha : a ∈ args) := ih a ha (h.arg ha)
      clear * - harg
      induction args with
      | nil => exact fun x hx => nomatch hx
      | cons a as iha =>
        intro x hx
        rcases List.mem_append.mp hx with hx | hx
        · exact harg a List.mem_cons_self x hx
        · exact iha (fun b hb => harg b (List.mem_cons_of_mem a hb)) x hx
    intro x hx
    rcases List.mem_cons.mp hx with rfl | hx
    · exact h.node.2
    · exact hargs x hx

theorem pairHeads_signed (h : Signed ar eqs) : ∀ x ∈ eqs.flatMap pairHeads, x.2 = ar x.1 := by
  intro x hx
  obtain ⟨e, he, hx⟩ := List.mem_flatMap.mp hx
  rcases List.mem_append.mp hx with hx | hx
  · exact heads_signed (h e he).1 x hx
  · exact heads_signed (h e he).2 x hx

theorem setCol_comm {α : Type} (col : ℕ → α) {i j : ℕ} {v w : α} (h : i = j → v = w) :
    setCol (setCol col i v) j w = setCol (setCol col j w) i v := by
  funext m
  unfold setCol
  split_ifs with hj hi
  · exact (h (hi.symm.trans hj)).symm
  all_goals rfl

/-- Two symbols are registered in either order, a symbol of one arity also twice. -/
theorem register_comm (reg : Registry) {x y : ℕ × ℕ} (hx : x.2 = ar x.1) (hy : y.2 = ar y.1) :
    register (register reg x) y = register (register reg y) x := by
  have harity : x.1 = y.1 → x.2 = y.2 := fun h => by rw [hx, hy, h]
  unfold register Registry.register
  split_ifs
  · simp only [Registry.mk.injEq]
    exact ⟨setCol_comm _ fun _ => rfl, setCol_comm _ harity⟩
  all_goals rfl

theorem foldl_register_perm {hs hs' : List (ℕ × ℕ)} (h : ∀ x ∈ hs, x.2 = ar x.1)
    (hperm : hs.Perm hs') (reg : Registry) : hs.foldl register reg = hs'.foldl register reg :=
  hperm.foldl_eq' (fun x hx y hy reg => register_comm reg (h x hx) (h y hy)) reg

theorem occPos_perm (h : Signed ar eqs) (hperm : eqs.Perm eqs') (reg : Registry)
    (side : SideStats) : eqs.foldl occPos (reg, side) = eqs'.foldl occPos (reg, side) := by
  have hheads := hperm.flatMap_right pairHeads
  rw [foldl_occPos, foldl_occPos, foldl_register_perm (pairHeads_signed h) hheads,
    foldl_perm (f := fun x field => count field x) (fun x => book_adds x.1 1) hheads,
    foldl_perm posPair_adds hperm]

theorem kombi_perm (st : AtpWmiStats) (side : SideStats) (hperm : eqs.Perm eqs') :
    atpWmiKombi st eqs side = atpWmiKombi st eqs' side := by
  refine hperm.foldl_eq' (fun e _ e' _ side => ?_) side
  simp only [kombiPair, SideStats.mk.injEq, true_and]
  refine ⟨?_, ?_, ?_⟩ <;>
  · funext f
    abel

theorem finale_perm (st : AtpWmiStats) (field : Column) (hperm : eqs.Perm eqs') :
    eqs.foldl (finalePair st) field = eqs'.foldl (finalePair st) field :=
  foldl_perm (f := fun e field => finalePair st field e) (finalePair_adds st) hperm field

theorem symbolData_perm (heqs : Signed ar eqs) (hgoals : Signed ar goals) (hperm : eqs.Perm eqs')
    (hperm' : goals.Perm goals') : symbolData eqs goals = symbolData eqs' goals' := by
  have hnil : goals = [] ↔ goals' = [] := by
    rw [← List.length_eq_zero_iff, ← List.length_eq_zero_iff, hperm'.length_eq]
  unfold symbolData
  simp only [occPos_perm hgoals hperm', occPos_perm heqs hperm, kombi_perm _ _ hperm,
    kombi_perm _ _ hperm', finale_perm _ _ hperm, finale_perm _ _ hperm', hnil]

/-! ## The places of the symbols -/

theorem placesFrom_of_notMem {syms : List ℕ} {f : ℕ} (hf : f ∉ syms) (k : ℕ) (posOf : ℕ → ℕ) :
    placesFrom k syms posOf f = posOf f := by
  induction syms generalizing k posOf with
  | nil => rfl
  | cons g syms ih =>
    rw [List.mem_cons, not_or] at hf
    rw [placesFrom, ih hf.2, setCol, if_neg hf.1]

theorem placesFrom_of_mem {syms : List ℕ} (hnodup : syms.Nodup) {f : ℕ} (hf : f ∈ syms) (k : ℕ)
    (posOf : ℕ → ℕ) : placesFrom k syms posOf f = k + syms.idxOf f := by
  induction syms generalizing k posOf with
  | nil => cases hf
  | cons g syms ih =>
    obtain ⟨hg, hnodup⟩ := List.nodup_cons.mp hnodup
    rw [placesFrom]
    rcases List.mem_cons.mp hf with rfl | hf
    · rw [placesFrom_of_notMem hg, setCol, if_pos rfl, List.idxOf_cons_self, Nat.add_zero]
    · have hne : g ≠ f := by
        rintro rfl
        exact hg hf
      rw [ih hnodup hf, List.idxOf_cons_ne _ hne]
      omega

theorem sortedSymbols_perm (st : AtpWmiStats) :
    (sortedSymbols st).Perm ((List.range waldMaxSymbols).filter st.present) :=
  bubbleSort_perm _ _

theorem mem_sortedSymbols {f : ℕ} :
    f ∈ sortedSymbols st ↔ f < waldMaxSymbols ∧ st.present f = true := by
  rw [(sortedSymbols_perm st).mem_iff, List.mem_filter, List.mem_range]

/-- Symbols that occur have different places. -/
theorem place_inj {f g : ℕ} (hf : f < waldMaxSymbols) (hg : g < waldMaxSymbols)
    (hf' : st.present f = true) (hg' : st.present g = true)
    (h : place (withPlaces st) f = place (withPlaces st) g) : f = g := by
  have hnodup : (sortedSymbols st).Nodup :=
    (sortedSymbols_perm st).nodup_iff.mpr (List.nodup_range.filter _)
  have hmem := mem_sortedSymbols.mpr ⟨hf, hf'⟩
  rw [place, place, if_pos hf, if_pos hg] at h
  simp only [withPlaces] at h
  rw [placesFrom_of_mem hnodup hmem,
    placesFrom_of_mem hnodup (mem_sortedSymbols.mpr ⟨hg, hg'⟩)] at h
  exact (List.idxOf_inj hmem).mp (Nat.add_left_cancel h)

theorem present_foldl_register {hs : List (ℕ × ℕ)} {reg : Registry} {f : ℕ} :
    (hs.foldl register reg).present f = true ↔
      reg.present f = true ∨ f < waldMaxSymbols ∧ ∃ n, (f, n) ∈ hs := by
  induction hs generalizing reg with
  | nil => simp
  | cons x hs ih =>
    have hstep : (register reg x).present f = true ↔
        reg.present f = true ∨ f < waldMaxSymbols ∧ f = x.1 := by
      unfold register Registry.register
      split_ifs with hx
      · by_cases hf : f = x.1
        · subst hf
          simp [setCol, hx]
        · simp [setCol, hf]
      · refine ⟨.inl, fun h => h.resolve_right ?_⟩
        rintro ⟨hlt, rfl⟩
        exact hx hlt
    have hsplit : (∃ n, (f, n) ∈ x :: hs) ↔ f = x.1 ∨ ∃ n, (f, n) ∈ hs := by
      constructor
      · rintro ⟨n, hn⟩
        rcases List.mem_cons.mp hn with rfl | hn
        · exact .inl rfl
        · exact .inr ⟨n, hn⟩
      · rintro (rfl | ⟨n, hn⟩)
        · exact ⟨x.2, List.mem_cons_self⟩
        · exact ⟨n, List.mem_cons_of_mem x hn⟩
    rw [List.foldl_cons, ih, hstep, hsplit]
    tauto

theorem mem_headsArgs {x : ℕ × ℕ} {args : List FTerm} :
    x ∈ headsArgs args ↔ ∃ a ∈ args, x ∈ heads a := by
  induction args with
  | nil => simp [headsArgs]
  | cons a as ih => simp [headsArgs, ih]

/-- A term of variables and of symbols that occur, each with its arity. -/
inductive Known (st : AtpWmiStats) (ar : ℕ → ℕ) : FTerm → Prop
  | var (v : ℕ) : Known st ar (.fvr v)
  | node {f : ℕ} {args : List FTerm} (hf : f < waldMaxSymbols) (hlen : args.length = ar f)
    (hpresent : st.present f = true) (hargs : ∀ a ∈ args, Known st ar a) :
    Known st ar (.node f args)

theorem OverSignature.known {t : FTerm} (h : OverSignature ar t)
    (hpresent : ∀ x ∈ heads t, x.1 < waldMaxSymbols → st.present x.1 = true) : Known st ar t := by
  induction t using TermTree.induct with
  | leaf l =>
    cases l with
    | fvr v => exact .var v
    | num d v => exact absurd (List.mem_singleton_self _) (h.noNum d v)
  | node f args ih =>
    refine .node h.node.1 h.node.2 (hpresent (f, _) List.mem_cons_self h.node.1) fun a ha => ?_
    exact ih a ha (h.arg ha) fun x hx =>
      hpresent x (List.mem_cons_of_mem _ (mem_headsArgs.mpr ⟨a, ha, hx⟩))

/-- The symbols of the axioms have been met. -/
theorem known_symbolData (h : Signed ar eqs) {e : Equation} (he : e ∈ eqs) :
    Known (symbolData eqs goals) ar e.1 ∧ Known (symbolData eqs goals) ar e.2 := by
  have hpresent (x) (hx : x ∈ pairHeads e) (hlt : x.1 < waldMaxSymbols) :
      (symbolData eqs goals).present x.1 = true := by
    have hreg : (symbolData eqs goals).present = ((eqs.flatMap pairHeads).foldl register
        (goals.foldl occPos (⟨fun _ => false, fun _ => 0⟩, noSide)).1).present := by
      simp only [symbolData, foldl_occPos]
      split_ifs <;> rfl
    rw [hreg, present_foldl_register]
    exact .inr ⟨hlt, x.2, List.mem_flatMap.mpr ⟨e, he, hx⟩⟩
  exact ⟨(h e he).1.known fun x hx => hpresent x (List.mem_append_left _ hx),
    (h e he).2.known fun x hx => hpresent x (List.mem_append_right _ hx)⟩

/-! ## The comparison as that of lists -/

mutual

/-- The symbols by their places and the variables by their ranks, in the order of the walk. -/
def code (st : AtpWmiStats) (vmap : ℕ → ℕ) : FTerm → List ℤ
  | .leaf (.fvr v) => [-(varRank vmap v + 1 : ℤ)]
  | .leaf (.num d _) => [(place st d : ℤ)]
  | .node f args => (place st f : ℤ) :: codeArgs st vmap args

def codeArgs (st : AtpWmiStats) (vmap : ℕ → ℕ) : List FTerm → List ℤ
  | [] => []
  | a :: as => code st vmap a ++ codeArgs st vmap as

end

theorem compares_cons {o o' : Ordering} {x y : ℤ} {s t : List ℤ} (h : o.Compares x y)
    (h' : o'.Compares s t) : (o.then o').Compares (x :: s) (y :: t) := by
  cases o with
  | lt => exact List.cons_lt_cons_iff.mpr (.inl h)
  | gt => exact List.cons_lt_cons_iff.mpr (.inl h)
  | eq =>
    obtain rfl : x = y := h
    cases o' with
    | lt => exact List.cons_lt_cons_iff.mpr (.inr ⟨rfl, h'⟩)
    | gt => exact List.cons_lt_cons_iff.mpr (.inr ⟨rfl, h'⟩)
    | eq => exact congrArg (x :: ·) h'

theorem compare_compares (m n : ℕ) : (compare m n).Compares m n := by
  rcases lt_trichotomy m n with h | rfl | h
  · rw [compare_lt_iff_lt.mpr h]
    exact h
  · rw [compare_eq_iff_eq.mpr rfl]
    rfl
  · rw [compare_gt_iff_gt.mpr h]
    exact h

/-- Ranks are compared the other way round. -/
theorem rank_compares (m n : ℕ) : (compare n m).Compares (-(m + 1 : ℤ)) (-(n + 1 : ℤ)) := by
  have h := compare_compares n m
  revert h
  cases compare n m with
  | lt => exact fun h => show -(m + 1 : ℤ) < -(n + 1 : ℤ) by have : n < m := h; omega
  | eq => exact fun h => show -(m + 1 : ℤ) = -(n + 1 : ℤ) by have : n = m := h; omega
  | gt => exact fun h => show -(n + 1 : ℤ) < -(m + 1 : ℤ) by have : m < n := h; omega

section Comparison

variable {amap bmap : ℕ → ℕ}

theorem eqTermCmpArgs_compares {as bs : List FTerm} (hlen : as.length = bs.length)
    (h : ∀ a ∈ as, ∀ b ∈ bs, ∀ {o : Ordering} {s t : List ℤ}, o.Compares s t →
      ((atpWmiEqTermCmp st amap bmap a b).then o).Compares (code st amap a ++ s)
        (code st bmap b ++ t))
    {o : Ordering} {s t : List ℤ} (ho : o.Compares s t) :
    ((atpWmiEqTermCmpArgs st amap bmap as bs).then o).Compares (codeArgs st amap as ++ s)
      (codeArgs st bmap bs ++ t) := by
  induction as generalizing bs with
  | nil =>
    obtain rfl := List.length_eq_zero_iff.mp hlen.symm
    exact ho
  | cons a as ih =>
    cases bs with
    | nil => cases hlen
    | cons b bs =>
      have hrest := ih (Nat.succ.inj hlen) fun a' ha' b' hb' =>
        h a' (List.mem_cons_of_mem a ha') b' (List.mem_cons_of_mem b hb')
      rw [atpWmiEqTermCmpArgs, Ordering.then_assoc, codeArgs, codeArgs, List.append_assoc,
        List.append_assoc]
      exact h a List.mem_cons_self b List.mem_cons_self hrest

/-- The comparison of two terms, and behind it that of the rests, is the comparison of lists. -/
theorem eqTermCmp_compares {a b : FTerm} (ha : Known st ar a) (hb : Known st ar b) {o : Ordering}
    {s t : List ℤ} (ho : o.Compares s t) :
    ((atpWmiEqTermCmp (withPlaces st) amap bmap a b).then o).Compares
      (code (withPlaces st) amap a ++ s) (code (withPlaces st) bmap b ++ t) := by
  induction ha generalizing b o s t with
  | var u =>
    cases hb with
    | var v => exact compares_cons (rank_compares _ _) ho
    | node =>
      refine List.cons_lt_cons_iff.mpr (.inl ?_)
      omega
  | @node f as hf hlen hpresent hargs ih =>
    cases hb with
    | var v =>
      refine List.cons_lt_cons_iff.mpr (.inl ?_)
      omega
    | @node g bs hg hlen' hpresent' hargs' =>
      rw [atpWmiEqTermCmp, Ordering.then_assoc]
      cases hcmp : compare (place (withPlaces st) f) (place (withPlaces st) g) with
      | eq =>
        have hplace := compare_eq_iff_eq.mp hcmp
        obtain rfl := place_inj hf hg hpresent hpresent' hplace
        have hrest := eqTermCmpArgs_compares (hlen.trans hlen'.symm)
          (fun a ha b hb {_ _ _} => ih a ha (hargs' b hb)) ho
        exact compares_cons (o := .eq) rfl hrest
      | lt =>
        exact List.cons_lt_cons_iff.mpr (.inl (Int.ofNat_lt.mpr (compare_lt_iff_lt.mp hcmp)))
      | gt =>
        exact List.cons_lt_cons_iff.mpr (.inl (Int.ofNat_lt.mpr (compare_gt_iff_gt.mp hcmp)))

end Comparison

/-! ## The order of the axioms -/

def formKey (st : AtpWmiStats) (x : Form) : List ℤ := code st x.vmap x.lhs ++ code st x.vmap x.rhs

/-- The comparator does not tell the two axioms apart. -/
def Ties (st : AtpWmiStats) (e e' : Equation) : Prop := formCmp st (form st e) (form st e') = .eq

theorem form_known {st' : AtpWmiStats} {e : Equation} (h : Known st ar e.1 ∧ Known st ar e.2) :
    Known st ar (form st' e).lhs ∧ Known st ar (form st' e).rhs := by
  unfold form
  dsimp only
  split_ifs
  · exact h.symm
  · exact h

theorem formCmp_compares {x y : Form} (hx : Known st ar x.lhs ∧ Known st ar x.rhs)
    (hy : Known st ar y.lhs ∧ Known st ar y.rhs) :
    (formCmp (withPlaces st) x y).Compares (formKey (withPlaces st) x)
      (formKey (withPlaces st) y) := by
  have hrhs : ((atpWmiEqTermCmp (withPlaces st) x.vmap y.vmap x.rhs y.rhs).then .eq).Compares
      (code (withPlaces st) x.vmap x.rhs ++ []) (code (withPlaces st) y.vmap y.rhs ++ []) :=
    eqTermCmp_compares hx.2 hy.2 rfl
  rw [Ordering.then_eq, List.append_nil, List.append_nil] at hrhs
  exact eqTermCmp_compares hx.1 hy.1 hrhs

theorem isGT_iff {o : Ordering} {s t : List ℤ} (h : o.Compares s t) : o.isGT = true ↔ t < s := by
  cases o with
  | lt => exact iff_of_false Bool.false_ne_true (lt_asymm h)
  | eq => exact iff_of_false Bool.false_ne_true (Eq.not_gt h)
  | gt => exact iff_of_true rfl h

theorem eq_iff {o : Ordering} {s t : List ℤ} (h : o.Compares s t) : o = .eq ↔ s = t := by
  cases o with
  | lt => exact iff_of_false nofun (ne_of_lt h)
  | eq => exact iff_of_true rfl h
  | gt => exact iff_of_false nofun (ne_of_gt h)

/-- The axioms in the order of `order_out`. -/
def canonical (eqs goals : List Equation) : List Equation :=
  (thvmAtpWmIntakeOrder eqs goals).1.filterMap (eqs[·]?)

/-- The statistics that the comparator reads. -/
def stats (eqs goals : List Equation) : AtpWmiStats := withPlaces (symbolData eqs goals)

/-- The key of the axiom with the index `i`. -/
def indexKey (st : AtpWmiStats) (eqs : List Equation) (i : ℕ) : List ℤ :=
  (eqs[i]?).elim [] fun e => formKey st (form st e)

theorem formGt_compares (goals : List Equation) (h : Signed ar eqs) :
    Compares (formGt (stats eqs goals) (eqs.map (form (stats eqs goals))))
      (indexKey (stats eqs goals) eqs) (List.range eqs.length) := by
  intro a ha b hb
  have ha' := List.getElem?_eq_getElem (List.mem_range.mp ha)
  have hb' := List.getElem?_eq_getElem (List.mem_range.mp hb)
  have hknown {e : Equation} (he : e ∈ eqs) : Known (symbolData eqs goals) ar
      (form (stats eqs goals) e).lhs ∧ Known (symbolData eqs goals) ar
        (form (stats eqs goals) e).rhs := form_known (known_symbolData h he)
  simp only [formGt, List.getElem?_map, indexKey, ha', hb', Option.map_some, Option.elim_some]
  exact isGT_iff (formCmp_compares (hknown (List.getElem_mem _)) (hknown (List.getElem_mem _)))

theorem map_range_getElem? {α : Type} (xs : List α) :
    (List.range xs.length).map (xs[·]?) = xs.map some := by
  refine List.ext_getElem (by simp) fun i hi hi' => ?_
  rw [List.length_map, List.length_range] at hi
  simp [List.getElem?_eq_getElem hi]

theorem filterMap_range_getElem? {α : Type} (xs : List α) :
    (List.range xs.length).filterMap (xs[·]?) = xs := by
  have hid : ((List.range xs.length).map (xs[·]?)).filterMap id = xs := by
    rw [map_range_getElem?, List.filterMap_map]
    exact List.filterMap_some
  rwa [List.filterMap_map] at hid

/-- `order_out` lists every index once. -/
theorem order_perm (eqs goals : List Equation) :
    (thvmAtpWmIntakeOrder eqs goals).1.Perm (List.range eqs.length) := bubbleSort_perm _ _

/-- A canonical order is a rearrangement of the axioms. -/
theorem canonical_perm (eqs goals : List Equation) : (canonical eqs goals).Perm eqs := by
  have hperm := (order_perm eqs goals).filterMap (eqs[·]?)
  rwa [filterMap_range_getElem?] at hperm

theorem map_filterMap_getElem? {κ : Type} {es : List Equation} {l : List ℕ} (d : κ)
    (g : Equation → κ) (h : ∀ i ∈ l, i < es.length) :
    (l.filterMap (es[·]?)).map g = l.map fun i => (es[i]?).elim d g := by
  induction l with
  | nil => rfl
  | cons i l ih =>
    have hi := List.getElem?_eq_getElem (h i List.mem_cons_self)
    rw [List.filterMap_cons_some hi, List.map_cons, List.map_cons, hi,
      ih fun j hj => h j (List.mem_cons_of_mem i hj), Option.elim_some]

theorem map_canonical_key (eqs goals : List Equation) (st : AtpWmiStats) :
    (canonical eqs goals).map (fun e => formKey st (form st e)) =
      (thvmAtpWmIntakeOrder eqs goals).1.map (indexKey st eqs) :=
  map_filterMap_getElem? [] _ fun _ hi => List.mem_range.mp ((order_perm eqs goals).mem_iff.mp hi)

theorem ties_iff (h : Signed ar eqs) {e e' : Equation} (he : e ∈ eqs) (he' : e' ∈ eqs) :
    Ties (stats eqs goals) e e' ↔ formKey (stats eqs goals) (form (stats eqs goals) e) =
      formKey (stats eqs goals) (form (stats eqs goals) e') :=
  eq_iff (formCmp_compares (form_known (known_symbolData h he))
    (form_known (known_symbolData h he')))

/-- Axioms and goals given in another order come in the same canonical order, up to axioms that
the comparator does not tell apart. -/
theorem canonical_ties (heqs : Signed ar eqs) (hgoals : Signed ar goals) (hperm : eqs.Perm eqs')
    (hperm' : goals.Perm goals') :
    List.Forall₂ (Ties (stats eqs goals)) (canonical eqs goals) (canonical eqs' goals') := by
  have hstats : stats eqs' goals' = stats eqs goals := by
    rw [stats, stats, symbolData_perm heqs hgoals hperm hperm']
  have heqs' : Signed ar eqs' := fun e he => heqs e (hperm.mem_iff.mpr he)
  have hindex (es : List Equation) : (List.range es.length).map (indexKey (stats eqs goals) es) =
      es.map fun e => formKey (stats eqs goals) (form (stats eqs goals) e) := by
    have := congrArg (List.map fun o => Option.elim o [] fun e =>
      formKey (stats eqs goals) (form (stats eqs goals) e)) (map_range_getElem? es)
    rwa [List.map_map, List.map_map] at this
  have hgt' := formGt_compares goals' heqs'
  rw [hstats] at hgt'
  have hkeys : (canonical eqs goals).map (fun e => formKey (stats eqs goals)
      (form (stats eqs goals) e)) = (canonical eqs' goals').map fun e => formKey (stats eqs goals)
        (form (stats eqs goals) e) := by
    have hsorted := map_bubbleSort_eq (formGt_compares goals heqs) hgt' (by
      rw [hindex, hindex]
      exact hperm.map _)
    rw [map_canonical_key, map_canonical_key]
    simp only [thvmAtpWmIntakeOrder, ← stats.eq_def, hstats]
    exact hsorted
  rw [← List.forall₂_eq_eq_eq, List.forall₂_map_left_iff, List.forall₂_map_right_iff] at hkeys
  refine List.forall₂_iff_get.mpr ⟨hkeys.length_eq, fun i hi hi' => ?_⟩
  have hmem := (canonical_perm eqs goals).mem_iff.mp (List.get_mem _ ⟨i, hi⟩)
  have hmem' := (canonical_perm eqs' goals').mem_iff.mp (List.get_mem _ ⟨i, hi'⟩)
  exact (ties_iff heqs hmem (hperm.mem_iff.mpr hmem')).mpr
    ((List.forall₂_iff_get.mp hkeys).2 i hi hi')

end Thvm.Atp.WmIntake
