import Mathlib.Algebra.Order.Ring.Int
import Mathlib.Tactic.Common

/-!
# Tokens of a specification file

The lexer with one token of lookahead, over the bytes that are left of the source.
-/

namespace Thvm.Wald

def waldNameLen : ℕ := 32

/-! ## Characters -/

def ascii (s : String) : List UInt8 := s.toList.map Char.toUInt8

def between (lo hi : Char) (c : UInt8) : Bool := lo.toUInt8 ≤ c && c ≤ hi.toUInt8

def waldIsAlpha (c : UInt8) : Bool := between 'A' 'Z' c || between 'a' 'z' c || c == '_'.toUInt8

def waldIsDigit (c : UInt8) : Bool := between '0' '9' c

def waldIsIdent (c : UInt8) : Bool := waldIsAlpha c || waldIsDigit c

/-! ## Tokens -/

/-- The text of an identifier, cut to the space that it has. -/
structure WaldName where
  text : List UInt8
  nonempty : text ≠ []
  short : text.length < waldNameLen
  ident : ∀ c ∈ text, waldIsIdent c = true
  deriving DecidableEq

/-- A token kind; `WT_IDENT` with its text. -/
inductive WaldTok where
  | wtEnd
  | wtIdent (name : WaldName)
  | wtColon
  | wtArrow
  | wtEq
  | wtLparen
  | wtRparen
  | wtComma
  | wtGt
  | wtErr
  deriving DecidableEq

/-- An identifier that starts with `c`. -/
def WaldName.read (c : UInt8) (cs : List UInt8) (h : waldIsIdent c = true) : WaldName where
  text := c :: (cs.takeWhile waldIsIdent).take (waldNameLen - 2)
  nonempty := List.cons_ne_nil c _
  short := Nat.succ_lt_succ (Nat.lt_of_le_of_lt (List.length_take_le ..) (by decide))
  ident := List.forall_mem_cons.mpr ⟨h, fun _ hd =>
    List.all_eq_true.mp List.all_takeWhile _ (List.mem_of_mem_take hd)⟩

def isSpace (c : UInt8) : Bool :=
  c == ' '.toUInt8 || c == '\t'.toUInt8 || c == '\n'.toUInt8 || c == '\r'.toUInt8

/-- `wald_lex_skip_ws`; the newline that ends a comment is skipped as a space. -/
def waldLexSkipWs : Bool → List UInt8 → List UInt8
  | _, [] => []
  | true, c :: cs => waldLexSkipWs (c != '\n'.toUInt8) cs
  | false, c :: cs =>
    if isSpace c then waldLexSkipWs false cs
    else if c == '%'.toUInt8 then waldLexSkipWs true cs
    else c :: cs

/-- A token of one character. -/
def punctuation (c : UInt8) : WaldTok :=
  if c = ':'.toUInt8 then .wtColon
  else if c = '='.toUInt8 then .wtEq
  else if c = '('.toUInt8 then .wtLparen
  else if c = ')'.toUInt8 then .wtRparen
  else if c = ','.toUInt8 then .wtComma
  else if c = '>'.toUInt8 then .wtGt
  else .wtErr

/-- The token at the start of the bytes, which is no space. -/
def readToken : List UInt8 → WaldTok × List UInt8
  | [] => (.wtEnd, [])
  | c :: cs =>
    if h : waldIsIdent c then (.wtIdent (.read c cs h), cs.dropWhile waldIsIdent)
    else if c = '-'.toUInt8 then
      if cs.head? = some '>'.toUInt8 then (.wtArrow, cs.tail) else (.wtErr, cs)
    else (punctuation c, cs)

theorem readToken_end {bs : List UInt8} (h : (readToken bs).1 = .wtEnd) : bs = [] := by
  cases bs with
  | nil => rfl
  | cons c cs =>
    exfalso
    rw [readToken] at h
    unfold punctuation at h
    split_ifs at h

theorem readToken_length (bs : List UInt8) (h : (readToken bs).1 ≠ .wtEnd) :
    (readToken bs).2.length < bs.length := by
  cases bs with
  | nil => exact absurd rfl h
  | cons c cs =>
    refine Nat.lt_succ_of_le ?_
    rw [readToken]
    split_ifs
    · exact (List.dropWhile_sublist _).length_le
    · exact (List.tail_sublist cs).length_le
    · exact Nat.le_refl _
    · exact Nat.le_refl _

theorem waldLexSkipWs_length (comment : Bool) (bs : List UInt8) :
    (waldLexSkipWs comment bs).length ≤ bs.length := by
  induction bs generalizing comment with
  | nil => cases comment <;> exact Nat.le_refl _
  | cons c cs ih =>
    cases comment with
    | true => exact Nat.le_succ_of_le (ih _)
    | false =>
      rw [waldLexSkipWs]
      split_ifs
      · exact Nat.le_succ_of_le (ih _)
      · exact Nat.le_succ_of_le (ih _)
      · exact Nat.le_refl _

/-! ## The lexer -/

/-- The bytes from `pos` on, and the token that has been looked at. -/
structure WaldLex where
  rest : List UInt8
  peeked : Option WaldTok
  ended : peeked = some .wtEnd → rest = []

/-- The source ends at its first zero, and its length has 32 bits. -/
def waldLexInit (src : List UInt8) : WaldLex where
  rest := (src.takeWhile (· != 0)).take ((src.takeWhile (· != 0)).length % 2 ^ 32)
  peeked := none
  ended := fun h => nomatch h

/-- The next token that is not looked at yet. -/
def readNext (rest : List UInt8) : WaldTok × List UInt8 := readToken (waldLexSkipWs false rest)

def waldLexNext (lex : WaldLex) : WaldTok × WaldLex :=
  match lex.peeked with
  | some tok => (tok, ⟨lex.rest, none, fun h => nomatch h⟩)
  | none => ((readNext lex.rest).1, ⟨(readNext lex.rest).2, none, fun h => nomatch h⟩)

theorem readNext_end {rest : List UInt8} (h : (readNext rest).1 = .wtEnd) :
    (readNext rest).2 = [] := by
  have hend := readToken_end h
  rw [readNext, hend]
  rfl

def waldLexPeek (lex : WaldLex) : WaldTok × WaldLex :=
  match lex.peeked with
  | some tok => (tok, lex)
  | none =>
    ((readNext lex.rest).1, ⟨(readNext lex.rest).2, some (readNext lex.rest).1, fun h =>
      readNext_end (Option.some.inj h)⟩)

/-! ## The tokens that are left -/

/-- The tokens of the bytes, without the end. -/
def tokensOf (rest : List UInt8) : List WaldTok :=
  if (readNext rest).1 = .wtEnd then [] else (readNext rest).1 :: tokensOf (readNext rest).2
termination_by rest.length
decreasing_by
  refine Nat.lt_of_lt_of_le (readToken_length _ ?_) (waldLexSkipWs_length false rest)
  assumption

def WaldLex.tokens (lex : WaldLex) : List WaldTok :=
  match lex.peeked with
  | some tok => if tok = .wtEnd then [] else tok :: tokensOf lex.rest
  | none => tokensOf lex.rest

/-- The first of the tokens, or the end. -/
def look (toks : List WaldTok) : WaldTok := toks.head?.getD .wtEnd

@[simp] theorem look_cons (tok : WaldTok) (toks : List WaldTok) : look (tok :: toks) = tok := rfl

@[simp] theorem look_nil : look [] = .wtEnd := rfl

theorem look_tokensOf (rest : List UInt8) : look (tokensOf rest) = (readNext rest).1 := by
  rw [tokensOf]
  split
  · next h => exact h.symm
  · rfl

theorem tail_tokensOf (rest : List UInt8) : (tokensOf rest).tail = tokensOf (readNext rest).2 := by
  by_cases h : (readNext rest).1 = .wtEnd
  · have hnil (bs : List UInt8) (hbs : (readNext bs).1 = .wtEnd) : tokensOf bs = [] := by
      rw [tokensOf, if_pos hbs]
    rw [readNext_end h, hnil rest h, hnil [] rfl]
    rfl
  · rw [tokensOf, if_neg h]
    rfl

theorem tokensOf_ne_end {rest : List UInt8} : WaldTok.wtEnd ∉ tokensOf rest := by
  induction hlen : rest.length using Nat.strongRecOn generalizing rest with
  | ind n ih =>
    rw [tokensOf]
    split
    · exact List.not_mem_nil
    · next h =>
      have hlt := Nat.lt_of_lt_of_le (readToken_length _ h) (waldLexSkipWs_length false rest)
      exact List.not_mem_cons_of_ne_of_not_mem (Ne.symm h) (ih _ (hlen ▸ hlt) rfl)

namespace WaldLex

variable (lex : WaldLex)

theorem end_not_mem_tokens : WaldTok.wtEnd ∉ lex.tokens := by
  unfold tokens
  split
  · split
    · exact List.not_mem_nil
    · next hend => exact List.not_mem_cons_of_ne_of_not_mem (Ne.symm hend) tokensOf_ne_end
  · exact tokensOf_ne_end

/-- The lexer reads the first token, and the others are left. -/
theorem next_tokens : (waldLexNext lex).1 = look lex.tokens ∧
    (waldLexNext lex).2.tokens = lex.tokens.tail := by
  obtain ⟨rest, peeked, hended⟩ := lex
  cases peeked with
  | none => exact ⟨(look_tokensOf rest).symm, (tail_tokensOf rest).symm⟩
  | some tok =>
    simp only [waldLexNext, tokens]
    split
    · next hend =>
      obtain rfl := hended (congrArg some hend)
      rw [tokensOf]
      exact ⟨hend, rfl⟩
    · exact ⟨rfl, rfl⟩

/-- Looking ahead leaves all tokens. -/
theorem peek_tokens : (waldLexPeek lex).1 = look lex.tokens ∧
    (waldLexPeek lex).2.tokens = lex.tokens := by
  obtain ⟨rest, peeked, hended⟩ := lex
  cases peeked with
  | none => exact ⟨(look_tokensOf rest).symm, (tokensOf.eq_1 rest).symm⟩
  | some tok =>
    simp only [waldLexPeek, tokens]
    split
    · next hend => exact ⟨hend, trivial⟩
    · exact ⟨rfl, trivial⟩

/-- The number of tokens that are left. -/
def left : ℕ := lex.tokens.length

variable {lex} {lex' : WaldLex} {tok : WaldTok}

theorem next_left_le (h : waldLexNext lex = (tok, lex')) : lex'.left ≤ lex.left := by
  have htokens := (next_tokens lex).2
  rw [h] at htokens
  rw [left, left, htokens, List.length_tail]
  exact Nat.sub_le _ _

theorem next_left_lt (h : waldLexNext lex = (tok, lex')) (htok : tok ≠ .wtEnd) :
    lex'.left < lex.left := by
  obtain ⟨hlook, htokens⟩ := next_tokens lex
  rw [h] at hlook htokens
  rw [left, left, htokens]
  cases htoks : lex.tokens with
  | nil =>
    rw [htoks] at hlook
    exact absurd hlook htok
  | cons tok toks => exact Nat.lt_succ_self _

theorem peek_left (h : waldLexPeek lex = (tok, lex')) : lex'.left = lex.left := by
  have htokens := (peek_tokens lex).2
  rw [h] at htokens
  exact congrArg List.length htokens

/-- What has been looked at is read next. -/
theorem peek_next_lt (h : waldLexPeek lex = (tok, lex')) (htok : tok ≠ .wtEnd) :
    (waldLexNext lex').2.left < lex.left := by
  obtain ⟨hlook, htokens⟩ := peek_tokens lex
  rw [h] at hlook htokens
  have hnext : waldLexNext lex' = (tok, (waldLexNext lex').2) :=
    Prod.ext ((next_tokens lex').1.trans (by rw [htokens, ← hlook])) rfl
  exact Nat.lt_of_lt_of_eq (next_left_lt hnext htok) (peek_left h)

end WaldLex

end Thvm.Wald
