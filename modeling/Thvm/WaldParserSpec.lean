import Thvm.WaldParser

/-!
# The parser returns

Each section gives back the lexer with no more tokens than before, and with fewer when it has
found the next keyword.
-/

namespace Thvm.Wald

open BoundedLoops WaldLex

variable {spec : WaldSpec} {lex lex' : WaldLex} {r : Parsed} {tok : WaldTok}

/-- A keyword has been read, or nothing is known to be. -/
structure Parsed.After (lex : WaldLex) (r : Parsed) : Prop where
  le : r.lex.left ≤ lex.left
  lt : r.next ≠ none → r.lex.left < lex.left

theorem Parsed.After.mono (h : r.After lex) (hle : lex.left ≤ lex'.left) : r.After lex' :=
  ⟨h.le.trans hle, fun hnext => (h.lt hnext).trans_le hle⟩

theorem Parsed.After.ended {spec : WaldSpec} (hle : lex'.left ≤ lex.left) :
    (⟨none, spec, lex'⟩ : Parsed).After lex := ⟨hle, fun h => absurd rfl h⟩

theorem Parsed.After.keyword {spec : WaldSpec} {next : Option WaldSection}
    (hlt : lex'.left < lex.left) : (⟨next, spec, lex'⟩ : Parsed).After lex :=
  ⟨hlt.le, fun _ => hlt⟩

/-- The calls come to a section's end. -/
def Returns (p : ℕ → Option Parsed) (lex : WaldLex) : Prop := ∃ r, Settles p r ∧ r.After lex

theorem Returns.mono {p : ℕ → Option Parsed} (h : Returns p lex) (hle : lex.left ≤ lex'.left) :
    Returns p lex' := by
  obtain ⟨r, hr, hafter⟩ := h
  exact ⟨r, hr, hafter.mono hle⟩

/-! ## Rounds -/

section
variable {σ : Type} {view : σ → WaldLex} {s s' : σ}

/-- What a round of a section does to the tokens that are left. -/
def Shortens (view : σ → WaldLex) (s : σ) : Round σ Parsed → Prop
  | .again s' => (view s').left < (view s).left
  | .done r => r.After (view s)

theorem loop_returns {body : ℕ → σ → Option (Round σ Parsed)} (view : σ → WaldLex)
    (h : ∀ s, ∃ next, Settles (fun n => body n s) next ∧ Shortens view s next) (s : σ) :
    Returns (fun n => loop body n s) (view s) := by
  refine loop_settles (μ := fun s => (view s).left) (Q := fun s (r : Parsed) => r.After (view s))
    (fun s => ?_) s
  obtain ⟨next, hnext, hshort⟩ := h s
  refine ⟨next, hnext, ?_⟩
  cases next with
  | again s' => exact ⟨hshort, fun r hr => hr.mono (le_of_lt hshort)⟩
  | done r => exact hshort

/-- A round that ends with a call. -/
theorem Returns.shortens {p : ℕ → Option Parsed} (h : Returns p lex)
    (hle : lex.left ≤ (view s).left) :
    ∃ next, Settles (fun n => .done <$> p n) next ∧ Shortens view s next := by
  obtain ⟨r, hr, hafter⟩ := h
  exact ⟨.done r, hr.map _, hafter.mono hle⟩

end

/-! ## Sections -/

theorem waldSkipToSection_returns (spec : WaldSpec) (lex : WaldLex) :
    Returns (fun n => waldSkipToSection spec n lex) lex := by
  refine loop_returns id (fun lex => ⟨_, .const _, ?_⟩) lex
  cases hnext : waldLexNext lex with
  | mk tok lex' =>
    cases tok with
    | wtEnd => exact .ended (next_left_le hnext)
    | wtIdent name =>
      have hlt := next_left_lt hnext nofun
      dsimp only
      cases waldSectionFromIdent name with
      | none => exact hlt
      | some sec => exact .keyword hlt
    | _ => exact next_left_lt hnext nofun

theorem waldConsumeIfSection_left (lex : WaldLex) :
    ((waldConsumeIfSection lex).1 ≠ none → (waldConsumeIfSection lex).2.left < lex.left) ∧
      (waldConsumeIfSection lex).2.left ≤ lex.left := by
  unfold waldConsumeIfSection
  cases hpeek : waldLexPeek lex with
  | mk tok lex' =>
    cases tok with
    | wtIdent name =>
      have hlt := peek_next_lt hpeek nofun
      dsimp only
      cases waldSectionFromIdent name with
      | none => exact ⟨fun h => absurd rfl h, (peek_left hpeek).le⟩
      | some sec => exact ⟨fun _ => hlt, hlt.le⟩
    | _ => exact ⟨fun h => absurd rfl h, (peek_left hpeek).le⟩

theorem parseWord_returns (store : WaldName → WaldSpec) (spec : WaldSpec) (lex : WaldLex) :
    Returns (fun n => parseWord store spec n lex) lex := by
  obtain ⟨hlt, hle⟩ := waldConsumeIfSection_left lex
  unfold parseWord
  cases hword : waldConsumeIfSection lex with
  | mk next lex' =>
    rw [hword] at hlt hle
    cases next with
    | some sec => exact ⟨_, .const _, .keyword (hlt nofun)⟩
    | none =>
      dsimp only
      cases hpeek : waldLexPeek lex' with
      | mk tok lex'' =>
        cases tok with
        | wtIdent name =>
          exact (waldSkipToSection_returns _ _).mono ((peek_next_lt hpeek nofun).le.trans hle)
        | _ => exact (waldSkipToSection_returns _ _).mono ((peek_left hpeek).le.trans hle)

theorem parseWords_returns (store : WaldName → WaldSpec → WaldSpec) (spec : WaldSpec)
    (lex : WaldLex) : Returns (fun n => parseWords store spec n lex) lex := by
  refine loop_returns Prod.snd (fun s => ⟨_, .const _, ?_⟩) (spec, lex)
  cases hpeek : waldLexPeek s.2 with
  | mk tok lex' =>
    cases tok with
    | wtEnd => exact .ended (peek_left hpeek).le
    | wtIdent name =>
      have hlt := peek_next_lt hpeek nofun
      dsimp only
      cases waldSectionFromIdent name with
      | none => exact hlt
      | some sec => exact .keyword hlt
    | _ => exact peek_next_lt hpeek nofun

theorem parseArgSorts_returns (spec : WaldSpec) (lex : WaldLex) :
    ∃ r, Settles (fun n => parseArgSorts spec n lex) r ∧ r.2.2.2.left ≤ lex.left := by
  refine loop_settles (μ := fun s => s.2.2.left)
    (Q := fun s (r : WaldTok × ℕ × WaldSpec × WaldLex) => r.2.2.2.left ≤ s.2.2.left)
    (fun s => ⟨_, .const _, ?_⟩) (0, spec, lex)
  cases hnext : waldLexNext s.2.2 with
  | mk tok lex' =>
    cases tok with
    | wtIdent sort =>
      have hlt := next_left_lt hnext nofun
      dsimp only
      split <;> exact ⟨hlt, fun r hr => hr.trans hlt.le⟩
    | _ => exact next_left_le hnext

/-- A round that skips to the next section. -/
theorem skip_shortens {σ : Type} {view : σ → WaldLex} {s : σ} (spec : WaldSpec)
    (hle : lex.left ≤ (view s).left) :
    ∃ next, Settles (fun n => .done <$> waldSkipToSection spec n lex) next ∧
      Shortens view s next := (waldSkipToSection_returns spec lex).shortens hle

theorem parseResultSort_shortens {s : WaldSpec × WaldLex} (name : WaldName) (label : ℕ)
    (stop : WaldTok × ℕ × WaldSpec × WaldLex) (hlt : stop.2.2.2.left < s.2.left) :
    ∃ next, Settles (fun n => parseResultSort name label n stop) next ∧
      Shortens Prod.snd s next := by
  obtain ⟨tok, arity, spec, lex⟩ := stop
  cases tok with
  | wtArrow =>
    unfold parseResultSort
    dsimp only
    cases hresult : waldLexNext lex with
    | mk tok lex' =>
      have hlt := (next_left_le hresult).trans_lt hlt
      cases tok with
      | wtIdent sort => exact ⟨_, .const _, hlt⟩
      | _ => exact skip_shortens spec hlt.le
  | wtEnd => exact ⟨_, .const _, .ended hlt.le⟩
  | _ => exact skip_shortens spec hlt.le

theorem parseSymbol_shortens {s : WaldSpec × WaldLex} (spec : WaldSpec) (name : WaldName)
    (hlt : lex.left < s.2.left) :
    ∃ next, Settles (fun n => parseSymbol spec name n lex) next ∧ Shortens Prod.snd s next := by
  unfold parseSymbol
  cases hcolon : waldLexNext lex with
  | mk tok lex₁ =>
    have h₁ := (next_left_le hcolon).trans_lt hlt
    cases tok with
    | wtColon =>
      obtain ⟨stop, hsorts, hle⟩ :=
        parseArgSorts_returns { spec with nextLabel := spec.nextLabel + 1 } lex₁
      obtain ⟨next, hnext, hshort⟩ :=
        parseResultSort_shortens name spec.nextLabel stop (hle.trans_lt h₁)
      exact ⟨next, hsorts.bind hnext, hshort⟩
    | _ => exact skip_shortens _ h₁.le

theorem waldParseSignature_returns (spec : WaldSpec) (lex : WaldLex) :
    Returns (fun n => waldParseSignature spec n lex) lex := by
  refine loop_returns Prod.snd (fun s => ?_) (spec, lex)
  cases hpeek : waldLexPeek s.2 with
  | mk tok lex' =>
    cases tok with
    | wtEnd => exact ⟨_, .const _, .ended (peek_left hpeek).le⟩
    | wtIdent name =>
      have hlt := peek_next_lt hpeek nofun
      dsimp only
      cases waldSectionFromIdent name with
      | some sec => exact ⟨_, .const _, .keyword hlt⟩
      | none =>
        dsimp only
        split
        · exact skip_shortens s.1 hlt.le
        · exact parseSymbol_shortens s.1 name hlt
    | _ => exact ⟨_, .const _, peek_next_lt hpeek nofun⟩

theorem parseVarTail_shortens {s : WaldSpec × ℕ × WaldLex} (spec : WaldSpec) (start : ℕ)
    (hlt : lex.left < s.2.2.left) :
    Shortens (fun s => s.2.2) s (parseVarTail spec start lex) := by
  unfold parseVarTail
  cases hpeek : waldLexPeek lex with
  | mk tok lex₁ =>
    have h₁ := (peek_left hpeek).trans_lt hlt
    cases tok with
    | wtComma => exact (next_left_le rfl).trans_lt h₁
    | wtColon =>
      dsimp only
      cases hsort : waldLexPeek (waldLexNext lex₁).2 with
      | mk tok lex₂ =>
        have h₂ : lex₂.left < s.2.2.left :=
          (peek_left hsort).trans_lt ((next_left_le rfl).trans_lt h₁)
        have h₃ : (waldLexNext lex₂).2.left < s.2.2.left := (next_left_le rfl).trans_lt h₂
        cases tok with
        | wtIdent sort =>
          dsimp only
          cases waldSectionFromIdent sort with
          | some inner => exact .keyword h₃
          | none =>
            dsimp only
            split <;> exact h₃
        | _ => exact h₂
    | _ => exact h₁

theorem waldParseVariables_returns (spec : WaldSpec) (lex : WaldLex) :
    Returns (fun n => waldParseVariables spec n lex) lex := by
  refine loop_returns (fun s => s.2.2) (fun s => ⟨_, .const _, ?_⟩)
    (spec, spec.vars.rows.length, lex)
  cases hpeek : waldLexPeek s.2.2 with
  | mk tok lex' =>
    cases tok with
    | wtEnd => exact .ended (peek_left hpeek).le
    | wtIdent name =>
      have hlt := peek_next_lt hpeek nofun
      dsimp only
      cases waldSectionFromIdent name with
      | some sec => exact .keyword hlt
      | none => exact parseVarTail_shortens _ _ hlt
    | _ => exact peek_next_lt hpeek nofun

theorem parseChain_returns (spec : WaldSpec) (lex : WaldLex) :
    ∃ r, Settles (fun n => parseChain spec n lex) r ∧ r.2.2.left ≤ lex.left ∧
      (r.2.1 ≠ none → r.2.2.left < lex.left) := by
  refine loop_settles (μ := fun s : Chain × WaldLex => s.2.left)
    (Q := fun s (r : Chain × Option WaldSection × WaldLex) => r.2.2.left ≤ s.2.left ∧
      (r.2.1 ≠ none → r.2.2.left < s.2.left)) (fun s => ⟨_, .const _, ?_⟩)
    (({} : Chain), lex)
  cases hpeek : waldLexPeek s.2 with
  | mk tok lex' =>
    have again (hlt : (waldLexNext lex').2.left < s.2.left)
        (r : Chain × Option WaldSection × WaldLex)
        (hr : r.2.2.left ≤ (waldLexNext lex').2.left ∧
          (r.2.1 ≠ none → r.2.2.left < (waldLexNext lex').2.left)) :
        r.2.2.left ≤ s.2.left ∧ (r.2.1 ≠ none → r.2.2.left < s.2.left) :=
      ⟨hr.1.trans hlt.le, fun hnext => (hr.2 hnext).trans hlt⟩
    cases tok with
    | wtEnd => exact ⟨(peek_left hpeek).le, fun h => absurd rfl h⟩
    | wtIdent name =>
      have hlt := peek_next_lt hpeek nofun
      dsimp only
      cases waldSectionFromIdent name with
      | some sec => exact ⟨hlt.le, fun _ => hlt⟩
      | none => exact ⟨hlt, again hlt⟩
    | _ =>
      have hlt := peek_next_lt hpeek nofun
      exact ⟨hlt, again hlt⟩

theorem waldParseOrdering_returns (spec : WaldSpec) (lex : WaldLex) :
    Returns (fun n => waldParseOrdering spec n lex) lex := by
  unfold waldParseOrdering
  cases hpeek : waldLexPeek lex with
  | mk tok lex' =>
    cases tok with
    | wtIdent name =>
      have hlt := peek_next_lt hpeek nofun
      dsimp only
      cases waldSectionFromIdent name with
      | some sec => exact ⟨_, .const _, .keyword hlt⟩
      | none =>
        obtain ⟨r, hr, hle, hnext⟩ := parseChain_returns { spec with
          orderingKind := if name.text.head? = some 'L'.toUInt8 then .lpo else .kbo }
          (waldLexNext lex').2
        exact ⟨_, hr.bind (.const _), hle.trans hlt.le, fun h => (hnext h).trans hlt⟩
    | _ => exact (waldSkipToSection_returns spec lex').mono (peek_left hpeek).le

/-! ## Terms -/

section
variable {name : WaldName} {v : WaldVar} {sym : WaldSym}

theorem waldParseTerm_var (hnext : waldLexNext lex = (.wtIdent name, lex'))
    (hv : spec.var? name = some v) (n : ℕ) :
    waldParseTerm spec (n + 1) lex = some (some (.fvr v.varId), lex') := by
  simp only [waldParseTerm, hnext, hv]

theorem waldParseTerm_unknown (hnext : waldLexNext lex = (.wtIdent name, lex'))
    (hv : spec.var? name = none) (hs : spec.sym? name = none) (n : ℕ) :
    waldParseTerm spec (n + 1) lex = some (none, lex') := by
  simp only [waldParseTerm, hnext, hv, hs]

theorem waldParseTerm_sym (hnext : waldLexNext lex = (.wtIdent name, lex'))
    (hv : spec.var? name = none) (hs : spec.sym? name = some sym) (n : ℕ) :
    waldParseTerm spec (n + 1) lex = parseApplication sym (parseArgs spec n []) lex' := by
  simp only [waldParseTerm, hnext, hv, hs]

theorem waldParseTerm_other (hnext : waldLexNext lex = (tok, lex'))
    (htok : ∀ name, tok ≠ .wtIdent name) (n : ℕ) :
    waldParseTerm spec (n + 1) lex = some (none, lex') := by
  cases tok with
  | wtIdent name => exact absurd rfl (htok name)
  | _ => simp only [waldParseTerm, hnext]

variable {lex₁ lex₂ lex₃ lex₄ : WaldLex}
  {readArgs : WaldLex → Option (Option (List FTerm) × WaldLex)}

theorem parseApplication_const (hpeek : waldLexPeek lex = (tok, lex₁)) (htok : tok ≠ .wtLparen) :
    parseApplication sym readArgs lex =
      some (if sym.arity ≠ 0 then none else some (sym.term []), lex₁) := by
  unfold parseApplication
  rw [hpeek]
  cases tok with
  | wtLparen => exact absurd rfl htok
  | _ => rfl

theorem parseApplication_unit (hpeek : waldLexPeek lex = (.wtLparen, lex₁))
    (hnext : waldLexNext lex₁ = (.wtLparen, lex₂)) (hpeek' : waldLexPeek lex₂ = (.wtRparen, lex₃))
    (hclose : waldLexNext lex₃ = (.wtRparen, lex₄)) :
    parseApplication sym readArgs lex =
      some (if sym.arity ≠ 0 then none else some (sym.term []), lex₄) := by
  simp only [parseApplication, hpeek, hnext, hpeek', hclose]

theorem parseApplication_args (hpeek : waldLexPeek lex = (.wtLparen, lex₁))
    (hnext : waldLexNext lex₁ = (.wtLparen, lex₂)) (hpeek' : waldLexPeek lex₂ = (tok, lex₃))
    (htok : tok ≠ .wtRparen) :
    parseApplication sym readArgs lex = sym.apply <$> readArgs lex₃ := by
  simp only [parseApplication, hpeek, hnext, hpeek']

end

/-- A term takes at least one token. -/
def TermReturns (spec : WaldSpec) (lex : WaldLex) : Prop :=
  ∃ r, Settles (fun n => waldParseTerm spec n lex) r ∧ r.2.left ≤ lex.left ∧
    (r.1 ≠ none → r.2.left < lex.left)

theorem parseArgs_returns {m : ℕ} (hterm : ∀ lex, lex.left ≤ m → TermReturns spec lex)
    (args : List FTerm) (lex : WaldLex) (hm : lex.left ≤ m) :
    ∃ r, Settles (fun n => parseArgs spec n args lex) r ∧ r.2.left ≤ lex.left := by
  induction hleft : lex.left using Nat.strongRecOn generalizing args lex with
  | ind k ih =>
    obtain ⟨⟨arg, lex₁⟩, harg, hle, hlt⟩ := hterm lex hm
    suffices h : ∃ r, Settles (fun n => parseArgTail (parseArgs spec n) args (arg, lex₁)) r ∧
        r.2.left ≤ lex.left by
      obtain ⟨r, hr, hrle⟩ := h
      exact ⟨r, (harg.bind hr).succ fun _ => rfl, hleft ▸ hrle⟩
    cases arg with
    | none => exact ⟨_, .const _, hle⟩
    | some arg =>
      have hlt := hlt nofun
      unfold parseArgTail
      dsimp only
      split
      · exact ⟨_, .const _, hle⟩
      · cases hnext : waldLexNext lex₁ with
        | mk tok lex₂ =>
          have hlt₂ := (next_left_le hnext).trans_lt hlt
          cases tok with
          | wtComma =>
            obtain ⟨r, hr, hrle⟩ := ih lex₂.left (hleft ▸ hlt₂) (args ++ [arg]) lex₂
              (hlt₂.le.trans hm) rfl
            exact ⟨r, hr, hrle.trans hlt₂.le⟩
          | _ => exact ⟨_, .const _, hlt₂.le⟩

theorem parseApplication_returns (sym : WaldSym) (lex : WaldLex)
    {parseArgs : ℕ → WaldLex → Option (Option (List FTerm) × WaldLex)}
    (hargs : ∀ lex', lex'.left ≤ lex.left →
      ∃ r, Settles (fun n => parseArgs n lex') r ∧ r.2.left ≤ lex'.left) :
    ∃ r, Settles (fun n => parseApplication sym (parseArgs n) lex) r ∧ r.2.left ≤ lex.left := by
  unfold parseApplication
  cases hparen : waldLexPeek lex with
  | mk tok lex₁ =>
    cases tok with
    | wtLparen =>
      have h₁ := peek_next_lt hparen nofun
      dsimp only
      cases hclose : waldLexPeek (waldLexNext lex₁).2 with
      | mk tok lex₂ =>
        have h₂ := (peek_left hclose).trans_le h₁.le
        have hrest (hne : tok ≠ .wtRparen) : ∃ r, Settles (fun n => parseArgs n lex₂) r ∧
            r.2.left ≤ lex.left := by
          obtain ⟨r, hr, hle⟩ := hargs lex₂ h₂
          exact ⟨r, hr, hle.trans h₂⟩
        cases tok with
        | wtRparen => exact ⟨_, .const _, (next_left_le rfl).trans h₂⟩
        | _ =>
          obtain ⟨r, hr, hle⟩ := hrest nofun
          exact ⟨_, hr.map _, hle⟩
    | _ => exact ⟨_, .const _, (peek_left hparen).le⟩

theorem waldParseTerm_returns (spec : WaldSpec) (lex : WaldLex) : TermReturns spec lex := by
  induction hleft : lex.left using Nat.strongRecOn generalizing lex with
  | ind k ih =>
    cases hnext : waldLexNext lex with
    | mk tok lex' =>
      have hle := next_left_le hnext
      by_cases htok : ∀ name, tok ≠ .wtIdent name
      · exact ⟨_, (Settles.const _).succ (waldParseTerm_other hnext htok), hle,
          fun h => absurd rfl h⟩
      · obtain ⟨name, rfl⟩ := not_forall_not.mp htok
        have hlt := next_left_lt hnext nofun
        cases hv : spec.var? name with
        | some v =>
          exact ⟨_, (Settles.const _).succ (waldParseTerm_var hnext hv), hle, fun _ => hlt⟩
        | none =>
          cases hs : spec.sym? name with
          | none =>
            exact ⟨_, (Settles.const _).succ (waldParseTerm_unknown hnext hv hs), hle, fun _ => hlt⟩
          | some sym =>
            have hterm (lex : WaldLex) (hlex : lex.left ≤ lex'.left) : TermReturns spec lex :=
              ih lex.left (hleft ▸ hlex.trans_lt hlt) lex rfl
            obtain ⟨r, hr, hrle⟩ :=
              parseApplication_returns sym lex' fun lex'' => parseArgs_returns hterm [] lex''
            have hrlt := hrle.trans_lt hlt
            exact ⟨r, hr.succ (waldParseTerm_sym hnext hv hs), hrlt.le, fun _ => hrlt⟩

/-! ## Equations -/

theorem waldParseEquationPair_returns (spec : WaldSpec) (lex : WaldLex) :
    ∃ r, Settles (fun n => waldParseEquationPair spec n lex) r ∧ r.2.left ≤ lex.left ∧
      (r.1 ≠ none → r.2.left < lex.left) := by
  obtain ⟨⟨lhs, lex₁⟩, hlhs, hle, hlt⟩ := waldParseTerm_returns spec lex
  suffices h : ∃ r, Settles (fun n => parseRhs spec n (lhs, lex₁)) r ∧ r.2.left ≤ lex.left ∧
      (r.1 ≠ none → r.2.left < lex.left) by
    obtain ⟨r, hr, hrest⟩ := h
    exact ⟨r, hlhs.bind hr, hrest⟩
  cases lhs with
  | none => exact ⟨_, .const _, hle, fun h => absurd rfl h⟩
  | some lhs =>
    have hlt := hlt nofun
    unfold parseRhs
    dsimp only
    cases hnext : waldLexNext lex₁ with
    | mk tok lex₂ =>
      have hlt₂ := (next_left_le hnext).trans_lt hlt
      cases tok with
      | wtEq =>
        obtain ⟨r, hr, hle₃, -⟩ := waldParseTerm_returns spec lex₂
        have hlt₃ := Nat.lt_of_le_of_lt hle₃ hlt₂
        exact ⟨_, hr.bind (.const _), hlt₃.le, fun _ => hlt₃⟩
      | _ => exact ⟨_, .const _, hlt₂.le, fun h => absurd rfl h⟩

theorem parsePairs_returns (store : FTerm × FTerm → WaldSpec → WaldSpec) (spec : WaldSpec)
    (lex : WaldLex) : Returns (fun n => parsePairs store spec n lex) lex := by
  refine loop_returns Prod.snd (fun s => ?_) (spec, lex)
  cases hpeek : waldLexPeek s.2 with
  | mk tok lex' =>
    have hle := (peek_left hpeek).le
    by_cases hend : tok = .wtEnd
    · subst hend
      exact ⟨_, .const _, .ended hle⟩
    · have hlt := peek_next_lt hpeek hend
      have hpair : ∃ next, Settles (fun n => waldParseEquationPair s.1 n lex' >>=
          storePair store s.1 n) next ∧ Shortens Prod.snd s next := by
        obtain ⟨⟨pair, lex₂⟩, hpair, hle₂, hlt₂⟩ := waldParseEquationPair_returns s.1 lex'
        cases pair with
        | none =>
          obtain ⟨r, hr, hafter⟩ := waldSkipToSection_returns s.1 lex₂
          exact ⟨_, hpair.bind (hr.map _), hafter.mono (hle₂.trans hle)⟩
        | some pair => exact ⟨_, hpair.bind (.const _), (hlt₂ nofun).trans_le hle⟩
      cases hsec : sectionOf tok with
      | none => cases tok <;> first | exact absurd rfl hend | simpa only [hsec] using hpair
      | some sec =>
        refine ⟨.done ⟨some sec, s.1, (waldLexNext lex').2⟩, (Settles.const _).congr fun n => ?_,
          .keyword hlt⟩
        cases tok <;> first | exact absurd rfl hend | simp only [hsec]

/-! ## The driver -/

theorem parseSection_returns (sec : WaldSection) (spec : WaldSpec) (lex : WaldLex) :
    Returns (fun n => parseSection sec spec n lex) lex := by
  cases sec with
  | wsecName => exact parseWord_returns _ spec lex
  | wsecMode => exact parseWord_returns _ spec lex
  | wsecSorts =>
    unfold parseSection waldParseSorts
    exact parseWords_returns _ spec lex
  | wsecSignature => exact waldParseSignature_returns spec lex
  | wsecVariables => exact waldParseVariables_returns spec lex
  | wsecOrdering => exact waldParseOrdering_returns spec lex
  | wsecEquations => exact parsePairs_returns _ spec lex
  | wsecConclusion => exact parsePairs_returns _ spec lex
  | wsecExists =>
    unfold parseSection waldParseExists
    exact parseWords_returns _ spec lex

/-- Each section ends the parse or has fewer tokens for the next one. -/
theorem nextSection_settles (p : Parsed) : ∃ next, Settles (fun n => nextSection n p) next ∧
    next.Leads (fun p => p.lex.left + if p.next = none then 0 else 1) (fun _ _ => True) p := by
  unfold nextSection
  cases hsec : p.next with
  | none => exact ⟨_, .const _, trivial⟩
  | some sec =>
    obtain ⟨r, hr, hafter⟩ := parseSection_returns sec p.spec p.lex
    refine ⟨.again r, hr.map _, ?_, fun _ _ => trivial⟩
    show r.lex.left + _ < p.lex.left + _
    rw [hsec, if_neg (nofun : some sec ≠ none)]
    split
    · exact Nat.lt_succ_of_le hafter.le
    · next hnext => exact Nat.succ_lt_succ (hafter.lt hnext)

/-- The parser returns on all texts. -/
theorem waldParse_returns (src : List UInt8) (spec : WaldSpec) :
    ∃ r, Settles (fun n => waldParse n src spec) r := by
  obtain ⟨start, hstart, -⟩ := waldSkipToSection_returns spec (waldLexInit src)
  by_cases hnone : start.next = none
  · refine ⟨_, hstart.bind ((Settles.const (.noSection, spec)).congr fun n => ?_)⟩
    exact if_pos hnone
  · obtain ⟨r, hr, -⟩ := loop_settles nextSection_settles start
    refine ⟨r, hstart.bind (hr.congr fun n => ?_)⟩
    exact if_neg hnone

end Thvm.Wald
