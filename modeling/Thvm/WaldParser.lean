import Thvm.BoundedLoops
import Thvm.FirstOrderTerms
import Thvm.WaldLexer

/-!
# Specification files

The parser of Waldmeister's files: one function for each section, and a driver which gives each
section the tokens up to the next keyword.
-/

namespace Thvm.Wald

open BoundedLoops

def waldMaxSymbols : ℕ := 64
def waldMaxVars : ℕ := 32
def waldMaxEqns : ℕ := 64
def waldMaxSorts : ℕ := 16
def waldMaxArity : ℕ := 8

/-! ## What a file says -/

/-- An array with a counter. -/
structure Table (α : Type) (cap : ℕ) where
  rows : List α
  bounded : rows.length ≤ cap
  deriving DecidableEq

namespace Table

variable {α : Type} {cap : ℕ}

def empty : Table α cap := ⟨[], Nat.zero_le cap⟩

/-- A row that has no room is dropped. -/
def push (t : Table α cap) (a : α) : Table α cap :=
  if h : t.rows.length < cap then ⟨t.rows ++ [a], List.length_append.trans_le h⟩ else t

/-- The rows are changed in place. -/
def map (f : List α → List α) (hf : ∀ rows, (f rows).length = rows.length) (t : Table α cap) :
    Table α cap := ⟨f t.rows, (hf t.rows).trans_le t.bounded⟩

end Table

structure WaldSym where
  name : WaldName
  label : ℕ
  arity : ℕ
  precRank : ℕ
  argSorts : List ℕ
  resultSort : ℕ
  deriving DecidableEq

structure WaldVar where
  name : WaldName
  varId : ℕ
  sort : ℕ
  deriving DecidableEq

inductive WaldOrder where
  | kbo
  | lpo
  deriving DecidableEq

/-- The sorts in the next free place of the symbols; a symbol that is given up leaves some. -/
structure SymSlot where
  argSorts : List ℕ := List.replicate waldMaxArity 0
  resultSort : ℕ := 0
  deriving DecidableEq

structure WaldSpec where
  name : Option WaldName := none
  modeProof : Bool := true
  orderingKind : WaldOrder := .kbo
  symbols : Table WaldSym waldMaxSymbols := .empty
  slot : SymSlot := {}
  nextLabel : ℕ := 1
  sorts : Table WaldName waldMaxSorts := .empty
  vars : Table WaldVar waldMaxVars := .empty
  eqns : Table (FTerm × FTerm) waldMaxEqns := .empty
  goal : Option (FTerm × FTerm) := none
  existentialVarIds : Table ℕ rewriteMaxVar := .empty
  deriving DecidableEq

def waldInit : WaldSpec := {}

/-! ## Sections -/

inductive WaldSection where
  | wsecName
  | wsecMode
  | wsecSorts
  | wsecSignature
  | wsecVariables
  | wsecOrdering
  | wsecEquations
  | wsecConclusion
  | wsecExists
  deriving DecidableEq

/-- `none` is `WSEC_NONE`. -/
def waldSectionFromIdent (name : WaldName) : Option WaldSection :=
  if name.text = ascii "NAME" then some .wsecName
  else if name.text = ascii "MODE" then some .wsecMode
  else if name.text = ascii "SORTS" then some .wsecSorts
  else if name.text = ascii "SIGNATURE" then some .wsecSignature
  else if name.text = ascii "VARIABLES" then some .wsecVariables
  else if name.text = ascii "ORDERING" then some .wsecOrdering
  else if name.text = ascii "EQUATIONS" then some .wsecEquations
  else if name.text = ascii "CONCLUSION" then some .wsecConclusion
  else if name.text = ascii "EXISTS" then some .wsecExists
  else none

/-- The section whose keyword a token is. -/
def sectionOf : WaldTok → Option WaldSection
  | .wtIdent name => waldSectionFromIdent name
  | _ => none

/-- What is left after a section: the next section, what has been read, and the lexer. -/
structure Parsed where
  next : Option WaldSection
  spec : WaldSpec
  lex : WaldLex

def waldSkipToSection (spec : WaldSpec) (rounds : ℕ) (lex : WaldLex) : Option Parsed :=
  loop (fun _ lex => some <|
    match waldLexNext lex with
    | (.wtEnd, lex) => .done ⟨none, spec, lex⟩
    | (.wtIdent name, lex) =>
      match waldSectionFromIdent name with
      | some sec => .done ⟨some sec, spec, lex⟩
      | none => .again lex
    | (_, lex) => .again lex) rounds lex

def waldConsumeIfSection (lex : WaldLex) : Option WaldSection × WaldLex :=
  match waldLexPeek lex with
  | (.wtIdent name, lex) =>
    match waldSectionFromIdent name with
    | some sec => (some sec, (waldLexNext lex).2)
    | none => (none, lex)
  | (_, lex) => (none, lex)

/-- A section with one word, which `store` takes. -/
def parseWord (store : WaldName → WaldSpec) (spec : WaldSpec) (rounds : ℕ) (lex : WaldLex) :
    Option Parsed :=
  match waldConsumeIfSection lex with
  | (some sec, lex) => some ⟨some sec, spec, lex⟩
  | (none, lex) =>
    match waldLexPeek lex with
    | (.wtIdent name, lex) => waldSkipToSection (store name) rounds (waldLexNext lex).2
    | (_, lex) => waldSkipToSection spec rounds lex

def waldParseName (spec : WaldSpec) : ℕ → WaldLex → Option Parsed :=
  parseWord (fun name => { spec with name := some name }) spec

def waldParseMode (spec : WaldSpec) : ℕ → WaldLex → Option Parsed :=
  parseWord (fun name => { spec with modeProof := name.text ≠ ascii "COMPLETION" }) spec

/-- A section that is a list of words; everything else in it is skipped. -/
def parseWords (store : WaldName → WaldSpec → WaldSpec) (spec : WaldSpec) (rounds : ℕ)
    (lex : WaldLex) : Option Parsed :=
  loop (fun _ s => some <|
    match waldLexPeek s.2 with
    | (.wtEnd, lex) => .done ⟨none, s.1, lex⟩
    | (.wtIdent name, lex) =>
      match waldSectionFromIdent name with
      | some sec => .done ⟨some sec, s.1, (waldLexNext lex).2⟩
      | none => .again (store name s.1, (waldLexNext lex).2)
    | (_, lex) => .again (s.1, (waldLexNext lex).2)) rounds (spec, lex)

/-- The id of a sort, `WALD_MAX_SORTS` when there is no room for it. -/
def waldSortIdOrRegister (spec : WaldSpec) (name : WaldName) : ℕ × WaldSpec :=
  match spec.sorts.rows.findIdx? (· = name) with
  | some i => (i, spec)
  | none =>
    if spec.sorts.rows.length ≥ waldMaxSorts then (waldMaxSorts, spec)
    else (spec.sorts.rows.length, { spec with sorts := spec.sorts.push name })

def waldParseSorts : WaldSpec → ℕ → WaldLex → Option Parsed :=
  parseWords fun name spec => (waldSortIdOrRegister spec name).2

/-- The first variable of a name. -/
def WaldSpec.var? (spec : WaldSpec) (name : WaldName) : Option WaldVar :=
  spec.vars.rows.find? (·.name = name)

/-- The first symbol of a name. -/
def WaldSpec.sym? (spec : WaldSpec) (name : WaldName) : Option WaldSym :=
  spec.symbols.rows.find? (·.name = name)

def waldParseExists : WaldSpec → ℕ → WaldLex → Option Parsed :=
  parseWords fun name spec =>
    match spec.var? name with
    | some v => { spec with existentialVarIds := spec.existentialVarIds.push v.varId }
    | none => spec

/-! ## The signature -/

/-- The argument sorts of a symbol, to the first token that is no identifier, with their
number. -/
def parseArgSorts (spec : WaldSpec) (rounds : ℕ) (lex : WaldLex) :
    Option (WaldTok × ℕ × WaldSpec × WaldLex) :=
  loop (fun _ s => some <|
    match waldLexNext s.2.2 with
    | (.wtIdent sort, lex) =>
      if s.1 < waldMaxArity then
        let (sid, spec) := waldSortIdOrRegister s.2.1 sort
        let argSorts := if sid < waldMaxSorts then spec.slot.argSorts.set s.1 sid
          else spec.slot.argSorts
        .again (s.1 + 1, { spec with slot := { spec.slot with argSorts := argSorts } }, lex)
      else .again (s.1 + 1, s.2.1, lex)
    | (tok, lex) => .done (tok, s.1, s.2.1, lex)) rounds (0, spec, lex)

/-- A symbol is complete when its result sort is there, and takes the sorts of its place. -/
def WaldSpec.addSymbol (spec : WaldSpec) (name : WaldName) (label arity : ℕ) : WaldSpec :=
  { spec with
    symbols := spec.symbols.push
      ⟨name, label, arity, 0, spec.slot.argSorts, spec.slot.resultSort⟩
    slot := {} }

/-- What follows the argument sorts, where `stop` is. -/
def parseResultSort (name : WaldName) (label rounds : ℕ) (stop : WaldTok × ℕ × WaldSpec × WaldLex) :
    Option (Round (WaldSpec × WaldLex) Parsed) :=
  match stop with
  | (.wtArrow, arity, spec, lex) =>
    match waldLexNext lex with
    | (.wtIdent sort, lex) =>
      let (sid, spec) := waldSortIdOrRegister spec sort
      let resultSort := if sid < waldMaxSorts then sid else spec.slot.resultSort
      let spec := { spec with slot := { spec.slot with resultSort := resultSort } }
      some (.again (spec.addSymbol name label arity, lex))
    | (_, lex) => .done <$> waldSkipToSection spec rounds lex
  | (.wtEnd, _, spec, lex) => some (.done ⟨none, spec, lex⟩)
  | (_, _, spec, lex) => .done <$> waldSkipToSection spec rounds lex

/-- What follows the name of a symbol; the label is used up in any case. -/
def parseSymbol (spec : WaldSpec) (name : WaldName) (rounds : ℕ) (lex : WaldLex) :
    Option (Round (WaldSpec × WaldLex) Parsed) :=
  let label := spec.nextLabel
  let spec := { spec with nextLabel := label + 1 }
  match waldLexNext lex with
  | (.wtColon, lex) => do parseResultSort name label rounds (← parseArgSorts spec rounds lex)
  | (_, lex) => .done <$> waldSkipToSection spec rounds lex

def waldParseSignature (spec : WaldSpec) (rounds : ℕ) (lex : WaldLex) : Option Parsed :=
  loop (fun rounds s =>
    match waldLexPeek s.2 with
    | (.wtEnd, lex) => some (.done ⟨none, s.1, lex⟩)
    | (.wtIdent name, lex) =>
      match waldSectionFromIdent name with
      | some sec => some (.done ⟨some sec, s.1, (waldLexNext lex).2⟩)
      | none =>
        if s.1.symbols.rows.length ≥ waldMaxSymbols then
          .done <$> waldSkipToSection s.1 rounds (waldLexNext lex).2
        else parseSymbol s.1 name rounds (waldLexNext lex).2
    | (_, lex) => some (.again (s.1, (waldLexNext lex).2))) rounds (spec, lex)

/-! ## Variables -/

def WaldSpec.addVar (spec : WaldSpec) (name : WaldName) : WaldSpec :=
  { spec with vars := spec.vars.push ⟨name, spec.vars.rows.length, 0⟩ }

/-- The variables from `start` on get the sort. -/
def WaldSpec.setSorts (spec : WaldSpec) (start sid : ℕ) : WaldSpec :=
  { spec with
    vars := spec.vars.map
      (List.mapIdx fun i v => if start ≤ i then { v with sort := sid } else v)
      fun _ => List.length_mapIdx }

/-- What follows the name of a variable; `start` is the first one without a sort. -/
def parseVarTail (spec : WaldSpec) (start : ℕ) (lex : WaldLex) :
    Round (WaldSpec × ℕ × WaldLex) Parsed :=
  match waldLexPeek lex with
  | (.wtComma, lex) => .again (spec, start, (waldLexNext lex).2)
  | (.wtColon, lex) =>
    match waldLexPeek (waldLexNext lex).2 with
    | (.wtIdent sort, lex) =>
      match waldSectionFromIdent sort with
      | some inner => .done ⟨some inner, spec, (waldLexNext lex).2⟩
      | none =>
        let (sid, spec) := waldSortIdOrRegister spec sort
        if sid < waldMaxSorts then
          .again (spec.setSorts start sid, spec.vars.rows.length, (waldLexNext lex).2)
        else .again (spec, start, (waldLexNext lex).2)
    | (_, lex) => .again (spec, start, lex)
  | (_, lex) => .again (spec, start, lex)

def waldParseVariables (spec : WaldSpec) (rounds : ℕ) (lex : WaldLex) : Option Parsed :=
  loop (fun _ s => some <|
    match waldLexPeek s.2.2 with
    | (.wtEnd, lex) => .done ⟨none, s.1, lex⟩
    | (.wtIdent name, lex) =>
      match waldSectionFromIdent name with
      | some sec => .done ⟨some sec, s.1, (waldLexNext lex).2⟩
      | none => parseVarTail (s.1.addVar name) s.2.1 (waldLexNext lex).2
    | (_, lex) => .again (s.1, s.2.1, (waldLexNext lex).2)) rounds
    (spec, spec.vars.rows.length, lex)

/-! ## The ordering -/

/-- The chain of symbols, as their places, and the last identifier if nothing has come after
it. -/
structure Chain where
  places : Table ℕ waldMaxSymbols := .empty
  last : Option WaldName := none

/-- The last identifier goes to the end of the chain. -/
def Chain.close (c : Chain) (spec : WaldSpec) : Chain where
  places :=
    match c.last.bind fun name => spec.symbols.rows.findIdx? (·.name = name) with
    | some i => c.places.push i
    | none => c.places
  last := none

/-- The chain up to the next section. -/
def parseChain (spec : WaldSpec) (rounds : ℕ) (lex : WaldLex) :
    Option (Chain × Option WaldSection × WaldLex) :=
  loop (fun _ s => some <|
    match waldLexPeek s.2 with
    | (.wtEnd, lex) => .done (s.1, none, lex)
    | (.wtIdent name, lex) =>
      match waldSectionFromIdent name with
      | some sec => .done (s.1, some sec, (waldLexNext lex).2)
      | none => .again ({ s.1 with last := some name }, (waldLexNext lex).2)
    | (.wtGt, lex) => .again (s.1.close spec, (waldLexNext lex).2)
    | (_, lex) => .again ({ s.1 with last := none }, (waldLexNext lex).2)) rounds ({}, lex)

/-- The first symbol of the chain is the greatest. -/
def WaldSpec.setRanks (spec : WaldSpec) (places : List ℕ) : WaldSpec :=
  { spec with
    symbols := spec.symbols.map
      (fun rows => places.zipIdx.foldl
        (fun rows p => rows.modify p.1 fun sym =>
          { sym with precRank := places.length - 1 - p.2 }) rows)
      fun rows => by
        induction places.zipIdx generalizing rows with
        | nil => rfl
        | cons p ps ih => exact (ih _).trans (List.length_modify ..) }

def waldParseOrdering (spec : WaldSpec) (rounds : ℕ) (lex : WaldLex) : Option Parsed :=
  match waldLexPeek lex with
  | (.wtIdent name, lex) =>
    match waldSectionFromIdent name with
    | some sec => some ⟨some sec, spec, (waldLexNext lex).2⟩
    | none => do
      let spec := { spec with
        orderingKind := if name.text.head? = some 'L'.toUInt8 then .lpo else .kbo }
      let (chain, next, lex) ← parseChain spec rounds (waldLexNext lex).2
      let chain := if chain.places.rows.length > 0 then chain.close spec else chain
      some ⟨next, spec.setRanks chain.places.rows, lex⟩
  | (_, lex) => waldSkipToSection spec rounds lex

/-! ## Terms -/

def WaldSym.term (sym : WaldSym) (args : List FTerm) : FTerm := .ctr (sym.label % 2 ^ 18) args

/-- The term of the arguments, if there are enough. -/
def WaldSym.apply (sym : WaldSym) (r : Option (List FTerm) × WaldLex) : Option FTerm × WaldLex :=
  (r.1.bind fun args => if args.length ≠ sym.arity then none else some (sym.term args), r.2)

/-- What follows the name of a symbol in a term; `none` inside is the invalid term. -/
def parseApplication (sym : WaldSym)
    (parseArgs : WaldLex → Option (Option (List FTerm) × WaldLex)) (lex : WaldLex) :
    Option (Option FTerm × WaldLex) :=
  match waldLexPeek lex with
  | (.wtLparen, lex) =>
    match waldLexPeek (waldLexNext lex).2 with
    | (.wtRparen, lex) =>
      some (if sym.arity ≠ 0 then none else some (sym.term []), (waldLexNext lex).2)
    | (_, lex) => sym.apply <$> parseArgs lex
  | (_, lex) => some (if sym.arity ≠ 0 then none else some (sym.term []), lex)

/-- What follows an argument, where `parseArgs` reads further ones. -/
def parseArgTail (parseArgs : List FTerm → WaldLex → Option (Option (List FTerm) × WaldLex))
    (args : List FTerm) : Option FTerm × WaldLex → Option (Option (List FTerm) × WaldLex)
  | (none, lex) => some (none, lex)
  | (some arg, lex) =>
    if args.length ≥ rewriteMaxArity then some (none, lex)
    else
      match waldLexNext lex with
      | (.wtComma, lex) => parseArgs (args ++ [arg]) lex
      | (.wtRparen, lex) => some (some (args ++ [arg]), lex)
      | (_, lex) => some (none, lex)

mutual

def waldParseTerm (spec : WaldSpec) : ℕ → WaldLex → Option (Option FTerm × WaldLex)
  | 0, _ => none
  | rounds + 1, lex =>
    match waldLexNext lex with
    | (.wtIdent name, lex) =>
      match spec.var? name with
      | some v => some (some (.fvr v.varId), lex)
      | none =>
        match spec.sym? name with
        | none => some (none, lex)
        | some sym => parseApplication sym (parseArgs spec rounds []) lex
    | (_, lex) => some (none, lex)

/-- The arguments after those that have been read. -/
def parseArgs (spec : WaldSpec) :
    ℕ → List FTerm → WaldLex → Option (Option (List FTerm) × WaldLex)
  | 0, _, _ => none
  | rounds + 1, args, lex =>
    waldParseTerm spec rounds lex >>= parseArgTail (parseArgs spec rounds) args

end

/-! ## Equations -/

/-- What follows the left side. -/
def parseRhs (spec : WaldSpec) (rounds : ℕ) :
    Option FTerm × WaldLex → Option (Option (FTerm × FTerm) × WaldLex)
  | (none, lex) => some (none, lex)
  | (some lhs, lex) =>
    match waldLexNext lex with
    | (.wtEq, lex) => do
      let (rhs, lex) ← waldParseTerm spec rounds lex
      some (rhs.map (lhs, ·), lex)
    | (_, lex) => some (none, lex)

def waldParseEquationPair (spec : WaldSpec) (rounds : ℕ) (lex : WaldLex) :
    Option (Option (FTerm × FTerm) × WaldLex) :=
  waldParseTerm spec rounds lex >>= parseRhs spec rounds

/-- What is done with a pair, which `store` takes; without one the section is over. -/
def storePair (store : FTerm × FTerm → WaldSpec → WaldSpec) (spec : WaldSpec) (rounds : ℕ) :
    Option (FTerm × FTerm) × WaldLex → Option (Round (WaldSpec × WaldLex) Parsed)
  | (some pair, lex) => some (.again (store pair spec, lex))
  | (none, lex) => .done <$> waldSkipToSection spec rounds lex

/-- A section of equations, one after the other. -/
def parsePairs (store : FTerm × FTerm → WaldSpec → WaldSpec) (spec : WaldSpec) (rounds : ℕ)
    (lex : WaldLex) : Option Parsed :=
  loop (fun rounds s =>
    match waldLexPeek s.2 with
    | (.wtEnd, lex) => some (.done ⟨none, s.1, lex⟩)
    | (tok, lex) =>
      match sectionOf tok with
      | some sec => some (.done ⟨some sec, s.1, (waldLexNext lex).2⟩)
      | none => waldParseEquationPair s.1 rounds lex >>= storePair store s.1 rounds)
    rounds (spec, lex)

def waldParseEquations : WaldSpec → ℕ → WaldLex → Option Parsed :=
  parsePairs fun pair spec => { spec with eqns := spec.eqns.push pair }

/-- The first conclusion stays. -/
def waldParseConclusion : WaldSpec → ℕ → WaldLex → Option Parsed :=
  parsePairs fun pair spec => { spec with goal := spec.goal.or (some pair) }

/-! ## The driver -/

inductive WaldErr where
  | ok
  | noSection
  deriving DecidableEq

def parseSection : WaldSection → WaldSpec → ℕ → WaldLex → Option Parsed
  | .wsecName => waldParseName
  | .wsecMode => waldParseMode
  | .wsecSorts => waldParseSorts
  | .wsecSignature => waldParseSignature
  | .wsecVariables => waldParseVariables
  | .wsecOrdering => waldParseOrdering
  | .wsecEquations => waldParseEquations
  | .wsecConclusion => waldParseConclusion
  | .wsecExists => waldParseExists

/-- The section that comes next, or the end. -/
def nextSection (rounds : ℕ) (p : Parsed) : Option (Round Parsed (WaldErr × WaldSpec)) :=
  match p.next with
  | none => some (.done (.ok, p.spec))
  | some sec => .again <$> parseSection sec p.spec rounds p.lex

def waldParse (rounds : ℕ) (src : List UInt8) (spec : WaldSpec) : Option (WaldErr × WaldSpec) := do
  let start ← waldSkipToSection spec rounds (waldLexInit src)
  if start.next = none then some (.noSection, spec) else loop nextSection rounds start

end Thvm.Wald
