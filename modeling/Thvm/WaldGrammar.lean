import Thvm.WaldParserSpec

/-!
# The grammar of terms

The term parser accepts what the grammar derives, and the text of a term is parsed back to it.
-/

namespace Thvm.Wald

open BoundedLoops WaldLex

variable {spec : WaldSpec} {lex lex' : WaldLex} {tok : WaldTok} {toks rest : List WaldTok}
  {name : WaldName} {v : WaldVar} {sym : WaldSym} {t : FTerm} {args ts : List FTerm}

/-! ## Derivations -/

mutual

/-- The tokens are a term, in which each symbol has its number of arguments. -/
inductive Derives (spec : WaldSpec) : List WaldTok → FTerm → Prop
  | var {name : WaldName} {v : WaldVar} (hv : spec.var? name = some v) :
    Derives spec [.wtIdent name] (.fvr v.varId)
  | const {name : WaldName} {sym : WaldSym} (hv : spec.var? name = none)
    (hs : spec.sym? name = some sym) (harity : sym.arity = 0) :
    Derives spec [.wtIdent name] (sym.term [])
  | unit {name : WaldName} {sym : WaldSym} (hv : spec.var? name = none)
    (hs : spec.sym? name = some sym) (harity : sym.arity = 0) :
    Derives spec [.wtIdent name, .wtLparen, .wtRparen] (sym.term [])
  | app {name : WaldName} {sym : WaldSym} {toks : List WaldTok} {args : List FTerm}
    (hv : spec.var? name = none) (hs : spec.sym? name = some sym)
    (hargs : DerivesArgs spec toks args) (harity : args.length = sym.arity) :
    Derives spec (.wtIdent name :: .wtLparen :: (toks ++ [.wtRparen])) (sym.term args)

/-- Terms with commas between them. -/
inductive DerivesArgs (spec : WaldSpec) : List WaldTok → List FTerm → Prop
  | one {toks : List WaldTok} {t : FTerm} (h : Derives spec toks t) : DerivesArgs spec toks [t]
  | more {toks toks' : List WaldTok} {t : FTerm} {ts : List FTerm} (h : Derives spec toks t)
    (hts : DerivesArgs spec toks' ts) : DerivesArgs spec (toks ++ .wtComma :: toks') (t :: ts)

end

/-- The name of a symbol takes the parenthesis that follows it. -/
def Munches (spec : WaldSpec) (toks rest : List WaldTok) : Prop :=
  ∀ name, toks = [.wtIdent name] → spec.var? name = none → look rest ≠ .wtLparen

/-! ## The next token -/

theorem next_of_tokens (h : lex.tokens = tok :: toks) :
    ∃ lex', waldLexNext lex = (tok, lex') ∧ lex'.tokens = toks := by
  obtain ⟨hlook, htokens⟩ := next_tokens lex
  rw [h] at hlook htokens
  exact ⟨_, Prod.ext hlook rfl, htokens⟩

theorem peek_of_tokens (h : lex.tokens = toks) :
    ∃ lex', waldLexPeek lex = (look toks, lex') ∧ lex'.tokens = toks := by
  obtain ⟨hlook, htokens⟩ := peek_tokens lex
  rw [h] at hlook htokens
  exact ⟨_, Prod.ext hlook rfl, htokens⟩

theorem tokens_of_next (h : waldLexNext lex = (tok, lex')) (htok : tok ≠ .wtEnd) :
    lex.tokens = tok :: lex'.tokens := by
  obtain ⟨hlook, htokens⟩ := next_tokens lex
  rw [h] at hlook htokens
  cases htoks : lex.tokens with
  | nil => exact absurd (hlook.trans (congrArg look htoks)) htok
  | cons tok' toks =>
    rw [htoks] at hlook htokens
    exact congrArg₂ List.cons hlook.symm htokens.symm

theorem tokens_of_peek (h : waldLexPeek lex = (tok, lex')) :
    lex'.tokens = lex.tokens ∧ look lex.tokens = tok := by
  obtain ⟨hlook, htokens⟩ := peek_tokens lex
  rw [h] at hlook htokens
  exact ⟨htokens, hlook.symm⟩

/-- The token that has been looked at is read next. -/
theorem next_of_peek (h : waldLexPeek lex = (tok, lex')) (htok : tok ≠ .wtEnd) :
    ∃ lex'', waldLexNext lex' = (tok, lex'') ∧ lex.tokens = tok :: lex''.tokens := by
  obtain ⟨htokens, hlook⟩ := tokens_of_peek h
  have hnext : waldLexNext lex' = (tok, (waldLexNext lex').2) :=
    Prod.ext ((next_tokens lex').1.trans (by rw [htokens, hlook])) rfl
  exact ⟨_, hnext, htokens ▸ tokens_of_next hnext htok⟩

/-! ## What is derived is parsed -/

theorem Derives.head (h : Derives spec toks t) : ∃ name rest, toks = .wtIdent name :: rest := by
  cases h <;> exact ⟨_, _, rfl⟩

theorem DerivesArgs.head (h : DerivesArgs spec toks ts) :
    ∃ name rest, toks = .wtIdent name :: rest := by
  cases h with
  | one h => exact h.head
  | more h hts =>
    obtain ⟨name, rest, rfl⟩ := h.head
    exact ⟨name, _, rfl⟩

/-- The parser takes the tokens and leaves the rest. -/
def Parses (spec : WaldSpec) (lex : WaldLex) (t : FTerm) (rest : List WaldTok) : Prop :=
  ∃ lex', Settles (fun n => waldParseTerm spec n lex) (some t, lex') ∧ lex'.tokens = rest

def ParsesArgs (spec : WaldSpec) (args : List FTerm) (lex : WaldLex) (ts : List FTerm)
    (rest : List WaldTok) : Prop :=
  ∃ lex', Settles (fun n => parseArgs spec n args lex) (some ts, lex') ∧ lex'.tokens = rest

theorem parses_var (hv : spec.var? name = some v) (h : lex.tokens = .wtIdent name :: rest) :
    Parses spec lex (.fvr v.varId) rest := by
  obtain ⟨lex', hnext, htokens⟩ := next_of_tokens h
  exact ⟨lex', (Settles.const _).succ (waldParseTerm_var hnext hv), htokens⟩

theorem parses_const (hv : spec.var? name = none) (hs : spec.sym? name = some sym)
    (harity : sym.arity = 0) (hmunch : look rest ≠ .wtLparen)
    (h : lex.tokens = .wtIdent name :: rest) : Parses spec lex (sym.term []) rest := by
  obtain ⟨lex₁, hnext, h₁⟩ := next_of_tokens h
  obtain ⟨lex₂, hpeek, h₂⟩ := peek_of_tokens h₁
  refine ⟨lex₂, (Settles.const _).succ fun n => (waldParseTerm_sym hnext hv hs n).trans ?_, h₂⟩
  rw [parseApplication_const hpeek hmunch, if_neg (not_not.mpr harity)]

theorem parses_unit (hv : spec.var? name = none) (hs : spec.sym? name = some sym)
    (harity : sym.arity = 0) (h : lex.tokens = .wtIdent name :: .wtLparen :: .wtRparen :: rest) :
    Parses spec lex (sym.term []) rest := by
  obtain ⟨lex₁, hnext, h₁⟩ := next_of_tokens h
  obtain ⟨lex₂, hpeek, h₂⟩ := peek_of_tokens h₁
  obtain ⟨lex₃, hparen, h₃⟩ := next_of_tokens h₂
  obtain ⟨lex₄, hpeek', h₄⟩ := peek_of_tokens h₃
  obtain ⟨lex₅, hclose, h₅⟩ := next_of_tokens h₄
  refine ⟨lex₅, (Settles.const _).succ fun n => (waldParseTerm_sym hnext hv hs n).trans ?_, h₅⟩
  rw [parseApplication_unit hpeek hparen hpeek' hclose, if_neg (not_not.mpr harity)]

theorem parses_app (hv : spec.var? name = none) (hs : spec.sym? name = some sym)
    (harity : args.length = sym.arity) (hhead : look toks ≠ .wtRparen)
    (hargs : ∀ lex', lex'.tokens = toks → ParsesArgs spec [] lex' args rest)
    (h : lex.tokens = .wtIdent name :: .wtLparen :: toks) :
    Parses spec lex (sym.term args) rest := by
  obtain ⟨lex₁, hnext, h₁⟩ := next_of_tokens h
  obtain ⟨lex₂, hpeek, h₂⟩ := peek_of_tokens h₁
  obtain ⟨lex₃, hparen, h₃⟩ := next_of_tokens h₂
  obtain ⟨lex₄, hpeek', h₄⟩ := peek_of_tokens h₃
  obtain ⟨lex₅, hsettles, h₅⟩ := hargs lex₄ h₄
  refine ⟨lex₅, Settles.succ ?_ (waldParseTerm_sym hnext hv hs), h₅⟩
  have happly : sym.apply (some args, lex₅) = (some (sym.term args), lex₅) := by
    rw [WaldSym.apply, Option.bind_some, if_neg (not_not.mpr harity)]
  exact ((hsettles.map sym.apply).cast happly).congr fun n =>
    parseApplication_args hpeek hparen hpeek' hhead

theorem parsesArgs_one (hlen : args.length < rewriteMaxArity)
    (hterm : Parses spec lex t (.wtRparen :: rest)) :
    ParsesArgs spec args lex (args ++ [t]) rest := by
  obtain ⟨lex₁, hsettles, h₁⟩ := hterm
  obtain ⟨lex₂, hclose, h₂⟩ := next_of_tokens h₁
  refine ⟨lex₂, (hsettles.bind ((Settles.const _).congr fun n => ?_)).succ fun _ => rfl, h₂⟩
  rw [parseArgTail, if_neg (Nat.not_le.mpr hlen), hclose]

theorem parsesArgs_more (hlen : args.length < rewriteMaxArity)
    (hterm : Parses spec lex t (.wtComma :: toks))
    (hargs : ∀ lex', lex'.tokens = toks → ParsesArgs spec (args ++ [t]) lex' ts rest) :
    ParsesArgs spec args lex ts rest := by
  obtain ⟨lex₁, hsettles, h₁⟩ := hterm
  obtain ⟨lex₂, hcomma, h₂⟩ := next_of_tokens h₁
  obtain ⟨lex₃, hrest, h₃⟩ := hargs lex₂ h₂
  refine ⟨lex₃, (hsettles.bind (hrest.congr fun n => ?_)).succ fun _ => rfl, h₃⟩
  rw [parseArgTail, if_neg (Nat.not_le.mpr hlen), hcomma]

mutual

/-- A derived term that no parenthesis follows is parsed. -/
theorem Derives.parses {toks : List WaldTok} {t : FTerm} (h : Derives spec toks t)
    (hcapped : t.ArityCapped) (lex : WaldLex) (rest : List WaldTok)
    (hmunch : Munches spec toks rest) (htokens : lex.tokens = toks ++ rest) :
    Parses spec lex t rest := by
  cases h with
  | var hv => exact parses_var hv htokens
  | const hv hs harity => exact parses_const hv hs harity (hmunch _ rfl hv) htokens
  | unit hv hs harity => exact parses_unit hv hs harity htokens
  | @app name sym toks args hv hs hargs harity =>
    obtain ⟨hlen, hcapped⟩ := TermTree.every_node.mp hcapped
    obtain ⟨name', toks', rfl⟩ := hargs.head
    refine parses_app hv hs harity ?_
      (fun lex' h' => hargs.parses [] hlen hcapped lex' rest h') ?_
    · exact (nofun : WaldTok.wtIdent name' ≠ .wtRparen)
    · rw [htokens]
      simp only [List.cons_append, List.append_assoc, List.nil_append]

theorem DerivesArgs.parses {toks : List WaldTok} {ts : List FTerm} (h : DerivesArgs spec toks ts)
    (args : List FTerm) (hlen : (args ++ ts).length ≤ rewriteMaxArity)
    (hcapped : ∀ t ∈ ts, t.ArityCapped) (lex : WaldLex) (rest : List WaldTok)
    (htokens : lex.tokens = toks ++ .wtRparen :: rest) :
    ParsesArgs spec args lex (args ++ ts) rest := by
  have hlt (t : FTerm) (ts : List FTerm) (h : (args ++ t :: ts).length ≤ rewriteMaxArity) :
      args.length < rewriteMaxArity := by
    rw [List.length_append, List.length_cons] at h
    omega
  cases h with
  | @one toks t h =>
    exact parsesArgs_one (hlt t [] hlen)
      (h.parses (hcapped t List.mem_cons_self) lex _ (fun _ _ _ => nofun) htokens)
  | @more toks toks' t ts h hts =>
    obtain ⟨ht, hts'⟩ := List.forall_mem_cons.mp hcapped
    rw [List.append_assoc, List.cons_append] at htokens
    rw [List.append_cons] at hlen ⊢
    refine parsesArgs_more (hlt t [] ?_) (h.parses ht lex _ (fun _ _ _ => nofun) htokens)
      fun lex' h' => hts.parses (args ++ [t]) hlen hts' lex' rest h'
    rw [List.length_append] at hlen
    exact Nat.le_of_add_right_le hlen

end

/-! ## What is parsed is derived -/

/-- The tokens that are gone derive the term. -/
def Derived (spec : WaldSpec) (lex : WaldLex) (t : FTerm) (lex' : WaldLex) : Prop :=
  ∃ toks, lex.tokens = toks ++ lex'.tokens ∧ Derives spec toks t ∧ t.ArityCapped ∧
    Munches spec toks lex'.tokens

def DerivedArgs (spec : WaldSpec) (args : List FTerm) (lex : WaldLex) (ts : List FTerm)
    (lex' : WaldLex) : Prop :=
  ∃ toks new, lex.tokens = toks ++ .wtRparen :: lex'.tokens ∧ ts = args ++ new ∧
    ts.length ≤ rewriteMaxArity ∧ DerivesArgs spec toks new ∧ ∀ t ∈ new, t.ArityCapped

theorem parseArgTail_derived {readArgs : List FTerm → WaldLex →
      Option (Option (List FTerm) × WaldLex)} {arg : Option FTerm} {lex₁ : WaldLex}
    (harg : ∀ t, arg = some t → Derived spec lex t lex₁)
    (hread : ∀ args lex ts, readArgs args lex = some (some ts, lex') →
      DerivedArgs spec args lex ts lex')
    (h : parseArgTail readArgs args (arg, lex₁) = some (some ts, lex')) :
    DerivedArgs spec args lex ts lex' := by
  cases arg with
  | none => cases h
  | some t =>
    obtain ⟨toks, htokens, hderives, hcapped, -⟩ := harg t rfl
    rw [parseArgTail] at h
    split at h
    · cases h
    · next hlen =>
      have hlen := Nat.lt_of_not_le hlen
      cases hnext : waldLexNext lex₁ with
      | mk tok lex₂ =>
        rw [hnext] at h
        cases tok with
        | wtComma =>
          obtain ⟨toks', new, htokens', rfl, hlen', hargs, hcapped'⟩ := hread _ _ _ h
          refine ⟨toks ++ .wtComma :: toks', t :: new, ?_, ?_, hlen', .more hderives hargs, ?_⟩
          · rw [htokens, tokens_of_next hnext nofun, htokens', List.append_assoc, List.cons_append]
          · rw [List.append_assoc, List.singleton_append]
          · exact List.forall_mem_cons.mpr ⟨hcapped, hcapped'⟩
        | wtRparen =>
          obtain ⟨hts, rfl⟩ := Prod.mk.inj (Option.some.inj h)
          obtain rfl := Option.some.inj hts
          refine ⟨toks, [t], ?_, rfl, ?_, .one hderives, List.forall_mem_singleton.mpr hcapped⟩
          · rw [htokens, tokens_of_next hnext nofun]
          · rw [List.length_append]
            exact hlen
        | _ => cases h

theorem parseApplication_derived {readArgs : WaldLex → Option (Option (List FTerm) × WaldLex)}
    {lex₁ : WaldLex} (hnext : lex.tokens = .wtIdent name :: lex₁.tokens)
    (hv : spec.var? name = none) (hs : spec.sym? name = some sym)
    (hread : ∀ lex ts, readArgs lex = some (some ts, lex') → DerivedArgs spec [] lex ts lex')
    (h : parseApplication sym readArgs lex₁ = some (some t, lex')) : Derived spec lex t lex' := by
  have hnullary (hnone : (if sym.arity ≠ 0 then none else some (sym.term [])) = some t) :
      sym.arity = 0 ∧ sym.term [] = t := by
    split at hnone
    · cases hnone
    · next harity => exact ⟨not_not.mp harity, Option.some.inj hnone⟩
  have hcapped (label : ℕ) : (FTerm.ctr label []).ArityCapped :=
    TermTree.every_node.mpr ⟨Nat.zero_le _, fun _ ha => (List.not_mem_nil ha).elim⟩
  cases hpeek : waldLexPeek lex₁ with
  | mk tok lex₂ =>
    by_cases hparen : tok = .wtLparen
    · subst hparen
      obtain ⟨lex₃, hnext₃, h₃⟩ := next_of_peek hpeek nofun
      cases hpeek' : waldLexPeek lex₃ with
      | mk tok lex₄ =>
        by_cases hclose : tok = .wtRparen
        · subst hclose
          obtain ⟨lex₅, hnext₅, h₅⟩ := next_of_peek hpeek' nofun
          rw [parseApplication_unit hpeek hnext₃ hpeek' hnext₅] at h
          obtain ⟨hnone, rfl⟩ := Prod.mk.inj (Option.some.inj h)
          obtain ⟨harity, rfl⟩ := hnullary hnone
          refine ⟨_, ?_, .unit hv hs harity, hcapped _, fun _ => nofun⟩
          rw [hnext, h₃, h₅]
          rfl
        · rw [parseApplication_args hpeek hnext₃ hpeek' hclose] at h
          obtain ⟨⟨found, lex₅⟩, hread', happly⟩ := Option.map_eq_some_iff.mp h
          obtain ⟨hbind, rfl⟩ := Prod.mk.inj happly
          obtain ⟨args, rfl, hterm⟩ := Option.bind_eq_some_iff.mp hbind
          split at hterm
          · cases hterm
          · next harity =>
            obtain rfl := Option.some.inj hterm
            obtain ⟨toks, new, htokens, rfl, hlen, hargs, hcappedArgs⟩ := hread _ _ hread'
            refine ⟨_, ?_, .app hv hs hargs (not_not.mp harity),
              TermTree.every_node.mpr ⟨hlen, hcappedArgs⟩, fun _ => nofun⟩
            rw [hnext, h₃, ← (tokens_of_peek hpeek').1, htokens]
            simp only [List.cons_append, List.append_assoc, List.nil_append]
    · rw [parseApplication_const hpeek hparen] at h
      obtain ⟨hnone, rfl⟩ := Prod.mk.inj (Option.some.inj h)
      obtain ⟨harity, rfl⟩ := hnullary hnone
      obtain ⟨htokens, hlook⟩ := tokens_of_peek hpeek
      refine ⟨[.wtIdent name], ?_, .const hv hs harity, hcapped _, fun _ _ _ => ?_⟩
      · rw [hnext, htokens]
        rfl
      · rwa [htokens, hlook]

/-- In each number of rounds a term and the arguments are parsed only when they are derived. -/
theorem derived_of_parsed (spec : WaldSpec) (n : ℕ) :
    (∀ lex t lex', waldParseTerm spec n lex = some (some t, lex') → Derived spec lex t lex') ∧
      ∀ args lex ts lex', parseArgs spec n args lex = some (some ts, lex') →
        DerivedArgs spec args lex ts lex' := by
  induction n with
  | zero => exact ⟨fun _ _ _ => nofun, fun _ _ _ _ => nofun⟩
  | succ n ih =>
    constructor
    · intro lex t lex' h
      cases hnext : waldLexNext lex with
      | mk tok lex₁ =>
        by_cases htok : ∀ name, tok ≠ .wtIdent name
        · rw [waldParseTerm_other hnext htok] at h
          cases h
        · obtain ⟨name, rfl⟩ := not_forall_not.mp htok
          have htokens := tokens_of_next hnext nofun
          cases hv : spec.var? name with
          | some v =>
            rw [waldParseTerm_var hnext hv] at h
            obtain ⟨ht, rfl⟩ := Prod.mk.inj (Option.some.inj h)
            obtain rfl := Option.some.inj ht
            refine ⟨_, htokens, .var hv, .leaf _, fun name' heq hnone => ?_⟩
            cases heq
            rw [hv] at hnone
            cases hnone
          | none =>
            cases hs : spec.sym? name with
            | none =>
              rw [waldParseTerm_unknown hnext hv hs] at h
              cases h
            | some sym =>
              rw [waldParseTerm_sym hnext hv hs] at h
              exact parseApplication_derived htokens hv hs (fun lex ts => ih.2 [] lex ts lex') h
    · intro args lex ts lex' h
      rw [parseArgs] at h
      obtain ⟨⟨arg, lex₁⟩, harg, htail⟩ := Option.bind_eq_some_iff.mp h
      refine parseArgTail_derived (fun t ht => ih.1 lex t lex₁ (ht ▸ harg))
        (fun args lex ts => ih.2 args lex ts lex') htail

/-- The parser accepts what the grammar derives with at most `REWRITE_MAX_ARITY` arguments, and
takes just its tokens. -/
theorem parses_iff : Parses spec lex t rest ↔ ∃ toks, lex.tokens = toks ++ rest ∧
    Derives spec toks t ∧ t.ArityCapped ∧ Munches spec toks rest := by
  constructor
  · rintro ⟨lex', ⟨N, hN⟩, rfl⟩
    exact (derived_of_parsed spec N).1 lex t lex' (hN N (Nat.le_refl N))
  · rintro ⟨toks, htokens, hderives, hcapped, hmunch⟩
    exact hderives.parses hcapped lex rest hmunch htokens

end Thvm.Wald
