import Mathlib.Data.List.TakeWhile
import Thvm.WaldGrammar

/-!
# Printed terms

The text of a term is its names, with parentheses and commas. When the names are distinct it is
parsed to the term it was printed from.
-/

namespace Thvm.Wald

open BoundedLoops WaldLex

variable {spec : WaldSpec} {c : UInt8} {cs rest : List UInt8} {name : WaldName} {t : FTerm}
  {v : WaldVar} {sym : WaldSym}

/-! ## Texts -/

def varText (spec : WaldSpec) (id : ℕ) : List UInt8 :=
  (spec.vars.rows.find? (·.varId = id)).elim [] (·.name.text)

def symText (spec : WaldSpec) (label arity : ℕ) : List UInt8 :=
  (spec.symbols.rows.find? fun sym => sym.label % 2 ^ 18 = label ∧ sym.arity = arity).elim []
    (·.name.text)

mutual

def printTerm (spec : WaldSpec) : FTerm → List UInt8
  | .leaf (.fvr id) => varText spec id
  | .leaf (.num _ _) => []
  | .node label [] => symText spec label 0
  | .node label (a :: as) =>
    symText spec label (as.length + 1) ++ '('.toUInt8 :: (printTerm spec a ++ printMore spec as)

/-- The other arguments. -/
def printMore (spec : WaldSpec) : List FTerm → List UInt8
  | [] => [')'.toUInt8]
  | a :: as => ','.toUInt8 :: (printTerm spec a ++ printMore spec as)

end

/-! ## Their tokens -/

/-- No identifier goes on with these bytes. -/
def Stops (rest : List UInt8) : Prop := ∀ c ∈ rest.head?, waldIsIdent c = false

theorem takeWhile_ident (h : ∀ c ∈ cs, waldIsIdent c = true) (hrest : Stops rest) :
    (cs ++ rest).takeWhile waldIsIdent = cs := by
  rw [List.takeWhile_append_of_pos h]
  cases rest with
  | nil => exact List.append_nil cs
  | cons c rest => rw [List.takeWhile_cons_of_neg (by simp [hrest c rfl]), List.append_nil]

theorem dropWhile_ident (h : ∀ c ∈ cs, waldIsIdent c = true) (hrest : Stops rest) :
    (cs ++ rest).dropWhile waldIsIdent = rest := by
  rw [List.dropWhile_append_of_pos h]
  cases rest with
  | nil => rfl
  | cons c rest => exact List.dropWhile_cons_of_neg (by simp [hrest c rfl])

theorem skip_ident (h : waldIsIdent c = true) :
    waldLexSkipWs false (c :: cs) = c :: cs := by
  have hne (d : UInt8) (hd : waldIsIdent d = false) : c ≠ d := by
    rintro rfl
    rw [h] at hd
    cases hd
  have hspace : isSpace c = false := by
    simp [isSpace, hne ' '.toUInt8 (by decide), hne '\t'.toUInt8 (by decide),
      hne '\n'.toUInt8 (by decide), hne '\r'.toUInt8 (by decide)]
  rw [waldLexSkipWs, hspace, if_neg Bool.false_ne_true, if_neg]
  simpa using hne '%'.toUInt8 (by decide)

theorem tokensOf_cons {tok : WaldTok} {cs rest : List UInt8} (h : readNext cs = (tok, rest))
    (htok : tok ≠ .wtEnd) : tokensOf cs = tok :: tokensOf rest := by
  rw [tokensOf, h, if_neg htok]

theorem tokensOf_name (name : WaldName) (hrest : Stops rest) :
    tokensOf (name.text ++ rest) = .wtIdent name :: tokensOf rest := by
  obtain ⟨text, hne, hshort, hident⟩ := name
  obtain ⟨c, cs, rfl⟩ := List.exists_cons_of_ne_nil hne
  obtain ⟨hc, hcs⟩ := List.forall_mem_cons.mp hident
  refine tokensOf_cons ?_ nofun
  rw [List.cons_append, readNext, skip_ident hc, readToken, dif_pos hc, dropWhile_ident hcs hrest]
  refine congrArg (fun name => (WaldTok.wtIdent name, rest)) ?_
  refine WaldName.mk.injEq .. ▸ ?_
  rw [takeWhile_ident hcs hrest, List.take_of_length_le]
  exact Nat.le_of_lt_succ (Nat.lt_of_succ_lt_succ hshort)

theorem tokensOf_lparen : tokensOf ('('.toUInt8 :: rest) = .wtLparen :: tokensOf rest :=
  tokensOf_cons rfl nofun

theorem tokensOf_rparen : tokensOf (')'.toUInt8 :: rest) = .wtRparen :: tokensOf rest :=
  tokensOf_cons rfl nofun

theorem tokensOf_comma : tokensOf (','.toUInt8 :: rest) = .wtComma :: tokensOf rest :=
  tokensOf_cons rfl nofun

/-! ## Declared terms -/

/-- No two variables or symbols have one name. -/
def WaldSpec.DistinctNames (spec : WaldSpec) : Prop :=
  (spec.vars.rows.map (·.name) ++ spec.symbols.rows.map (·.name)).Nodup

instance (spec : WaldSpec) : Decidable spec.DistinctNames :=
  inferInstanceAs (Decidable (List.Nodup _))

/-- The variables are declared, and the symbols with their numbers of arguments. -/
inductive Declared (spec : WaldSpec) : FTerm → Prop
  | var {v : WaldVar} (hv : v ∈ spec.vars.rows) : Declared spec (.fvr v.varId)
  | app {sym : WaldSym} {args : List FTerm} (hsym : sym ∈ spec.symbols.rows)
    (harity : args.length = sym.arity) (hargs : ∀ a ∈ args, Declared spec a) :
    Declared spec (sym.term args)

theorem find?_of_nodup {α β : Type} [DecidableEq β] {f : α → β} {l : List α} {a : α}
    (h : (l.map f).Nodup) (ha : a ∈ l) : l.find? (fun b => f b = f a) = some a := by
  induction l with
  | nil => cases ha
  | cons b l ih =>
    obtain ⟨hb, hnodup⟩ := List.nodup_cons.mp h
    rw [List.find?_cons]
    rcases List.mem_cons.mp ha with rfl | ha
    · rw [decide_eq_true rfl]
    · have hne : f b ≠ f a := fun heq => hb (heq ▸ List.mem_map_of_mem ha)
      rw [decide_eq_false hne]
      exact ih hnodup ha

theorem var?_of_mem (h : spec.DistinctNames) (hv : v ∈ spec.vars.rows) :
    spec.var? v.name = some v := find?_of_nodup (List.nodup_append.mp h).1 hv

theorem sym?_of_mem (h : spec.DistinctNames) (hsym : sym ∈ spec.symbols.rows) :
    spec.var? sym.name = none ∧ spec.sym? sym.name = some sym := by
  obtain ⟨-, hsyms, hdisjoint⟩ := List.nodup_append.mp h
  refine ⟨List.find?_eq_none.mpr fun v hv => ?_, find?_of_nodup hsyms hsym⟩
  simpa using hdisjoint _ (List.mem_map_of_mem hv) _ (List.mem_map_of_mem hsym)

/-- The name that is printed is one of a variable with the id. -/
theorem varText_eq (hv : v ∈ spec.vars.rows) :
    ∃ v' ∈ spec.vars.rows, v'.varId = v.varId ∧ varText spec v.varId = v'.name.text := by
  unfold varText
  cases hfind : spec.vars.rows.find? (·.varId = v.varId) with
  | none => exact absurd (decide_eq_true rfl) (List.find?_eq_none.mp hfind v hv)
  | some v' =>
    exact ⟨v', List.mem_of_find?_eq_some hfind, by simpa using List.find?_some hfind, rfl⟩

theorem symText_eq (hsym : sym ∈ spec.symbols.rows) :
    ∃ sym' ∈ spec.symbols.rows, sym'.label % 2 ^ 18 = sym.label % 2 ^ 18 ∧
      sym'.arity = sym.arity ∧
      symText spec (sym.label % 2 ^ 18) sym.arity = sym'.name.text := by
  unfold symText
  cases hfind : spec.symbols.rows.find? fun sym' =>
      sym'.label % 2 ^ 18 = sym.label % 2 ^ 18 ∧ sym'.arity = sym.arity with
  | none => exact absurd (decide_eq_true ⟨rfl, rfl⟩) (List.find?_eq_none.mp hfind sym hsym)
  | some sym' =>
    have hsym' : sym'.label % 2 ^ 18 = sym.label % 2 ^ 18 ∧ sym'.arity = sym.arity := by
      simpa [-Nat.reducePow] using List.find?_some hfind
    exact ⟨sym', List.mem_of_find?_eq_some hfind, hsym'.1, hsym'.2, rfl⟩

/-! ## The round trip -/

/-- The tokens of a printed term derive it. -/
def PrintsTo (spec : WaldSpec) (t : FTerm) : Prop :=
  ∀ rest, Stops rest →
    ∃ toks, tokensOf (printTerm spec t ++ rest) = toks ++ tokensOf rest ∧ Derives spec toks t

theorem stops_printMore (args : List FTerm) : Stops (printMore spec args ++ rest) := by
  cases args with
  | nil =>
    rintro _ ⟨⟩
    decide
  | cons a as =>
    rintro _ ⟨⟩
    decide

theorem printMore_tokens {a : FTerm} {as : List FTerm} (ha : PrintsTo spec a)
    (has : ∀ b ∈ as, PrintsTo spec b) (rest : List UInt8) :
    ∃ toks, tokensOf (printTerm spec a ++ (printMore spec as ++ rest)) =
      toks ++ .wtRparen :: tokensOf rest ∧ DerivesArgs spec toks (a :: as) := by
  induction as generalizing a with
  | nil =>
    obtain ⟨toks, htoks, hderives⟩ := ha _ (stops_printMore [])
    refine ⟨toks, ?_, .one hderives⟩
    rw [htoks, printMore, List.singleton_append, tokensOf_rparen]
  | cons b bs ih =>
    obtain ⟨hb, hbs⟩ := List.forall_mem_cons.mp has
    obtain ⟨toks, htoks, hderives⟩ := ha _ (stops_printMore (b :: bs))
    obtain ⟨toks', htoks', hargs⟩ := ih hb hbs
    refine ⟨toks ++ .wtComma :: toks', ?_, .more hderives hargs⟩
    rw [htoks, printMore, List.cons_append, tokensOf_comma, List.append_assoc, htoks',
      List.append_assoc, List.cons_append]

theorem printTerm_tokens (h : spec.DistinctNames) (ht : Declared spec t) : PrintsTo spec t := by
  induction ht with
  | @var v hv =>
    intro rest hrest
    obtain ⟨v', hv', hid, htext⟩ := varText_eq hv
    refine ⟨[.wtIdent v'.name], ?_, hid ▸ .var (var?_of_mem h hv')⟩
    rw [printTerm, htext, tokensOf_name v'.name hrest]
    rfl
  | @app sym args hsym harity hargs ih =>
    intro rest hrest
    obtain ⟨sym', hsym', hlabel, harity', htext⟩ := symText_eq hsym
    obtain ⟨hvar, hfind⟩ := sym?_of_mem h hsym'
    have hterm (args : List FTerm) : sym.term args = sym'.term args :=
      congrArg (FTerm.ctr · args) hlabel.symm
    rw [hterm]
    cases args with
    | nil =>
      refine ⟨[.wtIdent sym'.name], ?_, .const hvar hfind (harity'.trans harity.symm)⟩
      rw [← hterm, WaldSym.term, printTerm, ← List.length_nil, harity, htext,
        tokensOf_name sym'.name hrest]
      rfl
    | cons a as =>
      obtain ⟨ha, has⟩ := List.forall_mem_cons.mp ih
      obtain ⟨toks, htoks, hderives⟩ := printMore_tokens ha has rest
      refine ⟨_, ?_, .app hvar hfind hderives (harity.trans harity'.symm)⟩
      have hstops : Stops ('('.toUInt8 :: (printTerm spec a ++ printMore spec as) ++ rest) := by
        rintro _ ⟨⟩
        decide
      rw [← hterm, WaldSym.term, printTerm, ← List.length_cons, harity, htext, List.append_assoc,
        tokensOf_name sym'.name hstops, List.cons_append, tokensOf_lparen, List.append_assoc, htoks]
      simp only [List.cons_append, List.append_assoc, List.nil_append]

/-- A printed text has no zero. -/
theorem ident_ne_zero (h : waldIsIdent c = true) : c ≠ 0 := by
  rintro rfl
  revert h
  decide

theorem name_ne_zero (name : WaldName) : ∀ c ∈ name.text, c ≠ 0 :=
  fun c hc => ident_ne_zero (name.ident c hc)

theorem symText_ne_zero (label arity : ℕ) : ∀ c ∈ symText spec label arity, c ≠ 0 := by
  unfold symText
  cases spec.symbols.rows.find? fun sym => sym.label % 2 ^ 18 = label ∧ sym.arity = arity with
  | none => exact fun _ hc => (List.not_mem_nil hc).elim
  | some sym => exact name_ne_zero sym.name

theorem printMore_ne_zero {args : List FTerm} (h : ∀ a ∈ args, ∀ c ∈ printTerm spec a, c ≠ 0) :
    ∀ c ∈ printMore spec args, c ≠ 0 := by
  induction args with
  | nil => exact List.forall_mem_singleton.mpr (by decide)
  | cons a as ih =>
    obtain ⟨ha, has⟩ := List.forall_mem_cons.mp h
    rw [printMore]
    exact List.forall_mem_cons.mpr ⟨by decide, List.forall_mem_append.mpr ⟨ha, ih has⟩⟩

theorem printTerm_ne_zero (t : FTerm) : ∀ c ∈ printTerm spec t, c ≠ 0 := by
  induction t using TermTree.induct with
  | leaf l =>
    cases l with
    | num dtype value => exact fun _ hc => (List.not_mem_nil hc).elim
    | fvr id =>
      rw [printTerm, varText]
      cases spec.vars.rows.find? (·.varId = id) with
      | none => exact fun _ hc => (List.not_mem_nil hc).elim
      | some v => exact name_ne_zero v.name
  | node label args ih =>
    cases args with
    | nil => exact symText_ne_zero label 0
    | cons a as =>
      obtain ⟨ha, has⟩ := List.forall_mem_cons.mp ih
      rw [printTerm]
      exact List.forall_mem_append.mpr ⟨symText_ne_zero label _, List.forall_mem_cons.mpr
        ⟨by decide, List.forall_mem_append.mpr ⟨ha, printMore_ne_zero has⟩⟩⟩

theorem waldLexInit_tokens {src : List UInt8} (hzero : ∀ c ∈ src, c ≠ 0)
    (hlen : src.length < 2 ^ 32) : (waldLexInit src).tokens = tokensOf src := by
  have hwhole : src.takeWhile (· != 0) = src :=
    List.takeWhile_eq_self_iff.mpr fun c hc => bne_iff_ne.mpr (hzero c hc)
  show tokensOf ((src.takeWhile (· != 0)).take ((src.takeWhile (· != 0)).length % 2 ^ 32)) = _
  rw [hwhole, Nat.mod_eq_of_lt hlen, List.take_length]

theorem tokensOf_nil : tokensOf [] = [] := by
  rw [tokensOf]
  exact if_pos rfl

theorem munches_nil {toks : List WaldTok} : Munches spec toks [] := fun _ _ _ => nofun

/-- The tokens of a printed declared term derive it. -/
theorem printTerm_derives (h : spec.DistinctNames) (ht : Declared spec t)
    (hlen : (printTerm spec t).length < 2 ^ 32) :
    ∃ toks, (waldLexInit (printTerm spec t)).tokens = toks ++ [] ∧ Derives spec toks t := by
  obtain ⟨toks, htoks, hderives⟩ := printTerm_tokens h ht [] nofun
  rw [List.append_nil, tokensOf_nil] at htoks
  exact ⟨toks, (waldLexInit_tokens (printTerm_ne_zero t) hlen).trans htoks, hderives⟩

/-- A declared term is parsed from its text. -/
theorem printTerm_parses (h : spec.DistinctNames) (ht : Declared spec t) (hcapped : t.ArityCapped)
    (hlen : (printTerm spec t).length < 2 ^ 32) :
    Parses spec (waldLexInit (printTerm spec t)) t [] := by
  obtain ⟨toks, htoks, hderives⟩ := printTerm_derives h ht hlen
  exact parses_iff.mpr ⟨toks, htoks, hderives, hcapped, munches_nil⟩

/-- The parser returns on all texts; the term parser accepts what the grammar derives, for symbols
with a place for each argument, and leaves the other tokens; and a printed term is parsed back. -/
theorem waldParser_exact :
    (∀ src spec, ∃ r, Settles (fun n => waldParse n src spec) r) ∧
    (∀ spec lex, (∃ r, Settles (fun n => waldParseTerm spec n lex) r) ∧
      ∀ t rest, Parses spec lex t rest ↔ ∃ toks, lex.tokens = toks ++ rest ∧
        Derives spec toks t ∧ t.ArityCapped ∧ Munches spec toks rest) ∧
    ∀ spec t, spec.DistinctNames → Declared spec t → t.ArityCapped →
      (printTerm spec t).length < 2 ^ 32 → Parses spec (waldLexInit (printTerm spec t)) t [] := by
  refine ⟨waldParse_returns, fun spec lex => ⟨?_, fun t rest => parses_iff⟩,
    fun spec t => printTerm_parses⟩
  obtain ⟨r, hr, -⟩ := waldParseTerm_returns spec lex
  exact ⟨r, hr⟩

def nameF : WaldName := ⟨ascii "f", by decide, by decide, by decide +kernel⟩

def nameX : WaldName := ⟨ascii "x", by decide, by decide, by decide +kernel⟩

/-- A variable `x` and a symbol of the given name and arity. -/
def oneSymbol (name : WaldName) (arity : ℕ) : WaldSpec where
  symbols := ⟨[⟨name, 1, arity, 0, List.replicate waldMaxArity 0, 0⟩],
    (by decide : 1 ≤ waldMaxSymbols)⟩
  vars := ⟨[⟨nameX, 0, 0⟩], by decide⟩

theorem oneSymbol_declared (name : WaldName) (arity : ℕ) :
    Declared (oneSymbol name arity) (.ctr 1 (List.replicate arity (.fvr 0))) := by
  have hx : Declared (oneSymbol name arity) (.fvr 0) :=
    @Declared.var _ ⟨nameX, 0, 0⟩ List.mem_cons_self
  exact @Declared.app _ ⟨name, 1, arity, 0, List.replicate waldMaxArity 0, 0⟩ _
    List.mem_cons_self List.length_replicate fun _ ha => List.eq_of_mem_replicate ha ▸ hx

/-- `f(x,x)` is parsed back. -/
theorem waldParser_exact_instance :
    Parses (oneSymbol nameF 2)
      (waldLexInit (printTerm (oneSymbol nameF 2) (.ctr 1 [.fvr 0, .fvr 0])))
      (.ctr 1 [.fvr 0, .fvr 0]) [] :=
  waldParser_exact.2.2 (oneSymbol nameF 2) (.ctr 1 [.fvr 0, .fvr 0]) (by decide)
    (oneSymbol_declared nameF 2) (by decide) (by decide)

/-- A symbol with 17 arguments has derivations that are not accepted, and a constant with the
name of a variable is not parsed back. -/
theorem waldParser_rejects :
    (∃ toks, (waldLexInit (printTerm (oneSymbol nameF 17)
          (.ctr 1 (List.replicate 17 (.fvr 0))))).tokens = toks ++ [] ∧
        Derives (oneSymbol nameF 17) toks (.ctr 1 (List.replicate 17 (.fvr 0))) ∧
        ¬Parses (oneSymbol nameF 17) (waldLexInit (printTerm (oneSymbol nameF 17)
          (.ctr 1 (List.replicate 17 (.fvr 0))))) (.ctr 1 (List.replicate 17 (.fvr 0))) []) ∧
      Declared (oneSymbol nameX 0) (.ctr 1 []) ∧
      ¬Parses (oneSymbol nameX 0)
        (waldLexInit (printTerm (oneSymbol nameX 0) (.ctr 1 []))) (.ctr 1 []) [] := by
  refine ⟨?_, oneSymbol_declared nameX 0, ?_⟩
  · obtain ⟨toks, htoks, hderives⟩ :=
      printTerm_derives (by decide) (oneSymbol_declared nameF 17) (by decide)
    refine ⟨toks, htoks, hderives, fun h => ?_⟩
    obtain ⟨-, -, -, hcapped, -⟩ := parses_iff.mp h
    exact absurd hcapped (by decide)
  · rintro ⟨lex', hconst, -⟩
    have htokens : (waldLexInit (printTerm (oneSymbol nameX 0) (.ctr 1 []))).tokens =
        [.wtIdent nameX] := by
      refine (waldLexInit_tokens (printTerm_ne_zero _) (by decide)).trans ?_
      exact (tokensOf_name nameX (nofun : Stops [])).trans (congrArg _ tokensOf_nil)
    have hx : (oneSymbol nameX 0).var? nameX = some ⟨nameX, 0, 0⟩ := rfl
    obtain ⟨lex'', hvar, -⟩ := parses_var hx htokens
    cases hconst.unique hvar

end Thvm.Wald
