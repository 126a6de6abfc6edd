import Idl.Number.Decimal
import Idl.Text.Blank
import Idl.Text.Identifier
import Idl.Token

/-!
The text of one token.

`FirstLexeme.of` splits the first token off a text that starts with no trivia. Each kind of token
has its own split (`Lexeme.splitString`, `Lexeme.splitNumber`, ...), and each split gives back the
text that it was given: what it took, followed by what it left.
-/

namespace Idl

namespace Lexeme

/-- Splits a text at the first character that fails the test. -/
def splitWhile (p : Char → Bool) : List Char → List Char × List Char
  | [] => ([], [])
  | c :: cs =>
    if p c then
      let (taken, rest) := splitWhile p cs
      (c :: taken, rest)
    else ([], c :: cs)

/-- Splits the inside of a block comment after its closing mark; `none` if it is never closed. -/
def splitComment : List Char → Option (List Char × List Char)
  | [] => none
  | c :: cs =>
    match c, cs with
    | '*', '/' :: rest => some (['*', '/'], rest)
    | _, _ => (splitComment cs).map fun (taken, rest) => (c :: taken, rest)

/-- A piece of text that stands between tokens. -/
structure Trivia where
  chars : List Char
  rest : List Char
  /-- False for a block comment that is never closed. -/
  closed : Bool
deriving DecidableEq, Repr

/-- Splits off the comment or the white space character that a text starts with, if it does. -/
def splitTrivia : List Char → Option Trivia
  | [] => none
  | c :: cs =>
    if Text.isBlank c then some ⟨[c], cs, true⟩
    else
      match c, cs with
      | '/', '/' :: line =>
        let (taken, rest) := splitWhile (· != '\n') line
        some ⟨'/' :: '/' :: taken, rest, true⟩
      | '/', '*' :: body =>
        match splitComment body with
        | some (taken, rest) => some ⟨'/' :: '*' :: taken, rest, true⟩
        | none => some ⟨'/' :: '*' :: body, [], false⟩
      | _, _ => none

/-- Splits a string literal, without its opening quote, after its closing quote. A newline or the
end of the text ends it early, and the flag is false then. A backslash takes the next character
with it, whatever it is. -/
def splitString : List Char → List Char × List Char × Bool
  | [] => ([], [], false)
  | '\\' :: [] => (['\\'], [], false)
  | '\\' :: c :: cs =>
    let (taken, rest, closed) := splitString cs
    ('\\' :: c :: taken, rest, closed)
  | c :: cs =>
    if c = '\n' then ([], c :: cs, false)
    else if c = '"' then ([c], cs, true)
    else
      let (taken, rest, closed) := splitString cs
      (c :: taken, rest, closed)

/-- Splits off a leading character that passes the test, if there is one. -/
def splitOne (p : Char → Bool) : List Char → List Char × List Char
  | [] => ([], [])
  | c :: cs => if p c then ([c], cs) else ([], c :: cs)

/-- Splits off a point with at least one digit after it. -/
def splitFraction : List Char → List Char × List Char
  | '.' :: d :: cs =>
    if d.isDigit then
      let (digits, rest) := splitWhile Char.isDigit (d :: cs)
      ('.' :: digits, rest)
    else ([], '.' :: d :: cs)
  | cs => ([], cs)

/-- Splits off an exponent mark with a sign and digits, as far as they are there. -/
def splitExponent : List Char → List Char × List Char
  | [] => ([], [])
  | c :: cs =>
    if c = 'e' ∨ c = 'E' then
      let (sign, cs) := splitOne (fun c => c == '-' || c == '+') cs
      let (digits, cs) := splitWhile Char.isDigit cs
      (c :: sign ++ digits, cs)
    else ([], c :: cs)

/-- Splits off a number literal. A number that runs straight into the characters of a name takes
them along, and is then no number. -/
def splitNumber (cs : List Char) : List Char × List Char :=
  let (minus, cs) := splitOne (· == '-') cs
  let (whole, cs) := splitWhile Char.isDigit cs
  let (fraction, cs) := splitFraction cs
  let (exponent, cs) := splitExponent cs
  let (tail, cs) := splitWhile Text.isNamePart cs
  (minus ++ whole ++ fraction ++ exponent ++ tail, cs)

end Lexeme

/-- The first token of a text: its kind, its characters, what follows them, and what is wrong
with it, if anything. -/
structure FirstLexeme where
  kind : TokenKind
  chars : List Char
  rest : List Char
  fault : Option LexFault
deriving DecidableEq, Repr

namespace FirstLexeme

def ofString (cs : List Char) : FirstLexeme :=
  let (body, rest, closed) := Lexeme.splitString cs
  ⟨.string, '"' :: body, rest, if closed then none else some .unterminatedString⟩

def ofNumber (cs : List Char) : FirstLexeme :=
  let (chars, rest) := Lexeme.splitNumber cs
  match Decimal.ofChars? chars with
  | some _ => ⟨.number, chars, rest, none⟩
  | none => ⟨.invalid, chars, rest, some (.invalidNumber (String.ofList chars))⟩

def ofWord (cs : List Char) : FirstLexeme :=
  let (chars, rest) := Lexeme.splitWhile Text.isNamePart cs
  match Keyword.ofText? (String.ofList chars) with
  | some word => ⟨.keyword word, chars, rest, none⟩
  | none => ⟨.identifier, chars, rest, none⟩

def ofMark (c : Char) (cs : List Char) : FirstLexeme :=
  match c, cs with
  | '.', '.' :: '.' :: rest => ⟨.mark .ellipsis, ['.', '.', '.'], rest, none⟩
  | _, _ =>
    match Mark.ofChar? c with
    | some mark => ⟨.mark mark, [c], cs, none⟩
    | none => ⟨.invalid, [c], cs, some (.invalidCharacter c)⟩

def startsNumber (c : Char) (cs : List Char) : Bool :=
  c.isDigit || (c == '-' && cs.head?.any Char.isDigit)

def of (c : Char) (cs : List Char) : FirstLexeme :=
  if c = '"' then ofString cs
  else if startsNumber c cs then ofNumber (c :: cs)
  else if Text.isNameStart c then ofWord (c :: cs)
  else ofMark c cs

end FirstLexeme

/-! ### Every split is a split of the text -/

namespace Lexeme

theorem splitWhile_append (p : Char → Bool) (cs : List Char) :
    (splitWhile p cs).1 ++ (splitWhile p cs).2 = cs := by
  induction cs with
  | nil => rfl
  | cons c cs ih =>
    simp only [splitWhile]
    split <;> simp_all

theorem splitComment_append {cs taken rest : List Char}
    (split : splitComment cs = some (taken, rest)) : taken ++ rest = cs := by
  induction cs generalizing taken with
  | nil => simp [splitComment] at split
  | cons c cs ih =>
    simp only [splitComment] at split
    split at split
    · simp only [Option.some.injEq, Prod.mk.injEq] at split
      obtain ⟨rfl, rfl⟩ := split
      rfl
    · obtain ⟨⟨t, r⟩, inner, eq⟩ := Option.map_eq_some_iff.1 split
      simp only [Prod.mk.injEq] at eq
      obtain ⟨rfl, rfl⟩ := eq
      simp [ih inner]

theorem splitTrivia_append {cs : List Char} {trivia : Trivia}
    (split : splitTrivia cs = some trivia) : trivia.chars ++ trivia.rest = cs := by
  revert split
  fun_cases splitTrivia cs with
  | case1 => simp
  | case2 c cs blank => rintro ⟨⟩; rfl
  | case3 line taken rest split notBlank =>
    rintro ⟨⟩
    have whole := splitWhile_append (· != '\n') line
    rw [split] at whole
    simp [whole]
  | case4 body taken rest split notBlank =>
    rintro ⟨⟩
    simp [splitComment_append split]
  | case5 body => rintro ⟨⟩; simp
  | case6 => simp

theorem splitTrivia_chars_ne_nil {cs : List Char} {trivia : Trivia}
    (split : splitTrivia cs = some trivia) : trivia.chars ≠ [] := by
  revert split
  fun_cases splitTrivia cs <;> first | (rintro ⟨⟩; done) | (rintro ⟨⟩; simp)

theorem splitString_append (cs : List Char) :
    (splitString cs).1 ++ (splitString cs).2.1 = cs := by
  fun_induction splitString cs <;> simp_all

theorem splitOne_append (p : Char → Bool) (cs : List Char) :
    (splitOne p cs).1 ++ (splitOne p cs).2 = cs := by
  fun_cases splitOne p cs <;> simp_all

theorem splitFraction_append (cs : List Char) :
    (splitFraction cs).1 ++ (splitFraction cs).2 = cs := by
  fun_cases splitFraction cs with
  | case1 d cs digit digits rest split =>
    have whole := splitWhile_append Char.isDigit (d :: cs)
    rw [split] at whole
    simp [whole]
  | case2 => rfl
  | case3 => rfl

theorem splitExponent_append (cs : List Char) :
    (splitExponent cs).1 ++ (splitExponent cs).2 = cs := by
  cases cs with
  | nil => rfl
  | cons c cs =>
    simp only [splitExponent]
    split
    · simp [splitWhile_append, splitOne_append]
    · rfl

theorem splitNumber_append (cs : List Char) :
    (splitNumber cs).1 ++ (splitNumber cs).2 = cs := by
  simp [splitNumber, splitWhile_append, splitExponent_append, splitFraction_append,
    splitOne_append]

end Lexeme

namespace FirstLexeme

theorem ofNumber_chars_ne_nil {c : Char} {cs : List Char} (starts : startsNumber c cs = true) :
    (ofNumber (c :: cs)).chars ≠ [] := by
  have chars : (Lexeme.splitNumber (c :: cs)).1 ≠ [] := by
    by_cases minus : c = '-'
    · simp [Lexeme.splitNumber, Lexeme.splitOne, minus]
    · have digit : c.isDigit = true := by simpa [startsNumber, minus] using starts
      simp [Lexeme.splitNumber, Lexeme.splitOne, Lexeme.splitWhile, minus, digit]
  simp only [ofNumber]
  split <;> exact chars

theorem append (c : Char) (cs : List Char) : (of c cs).chars ++ (of c cs).rest = c :: cs := by
  unfold of
  split
  · next quote => subst quote; simp [ofString, Lexeme.splitString_append]
  · split
    · have whole := Lexeme.splitNumber_append (c :: cs)
      simp only [ofNumber]
      split <;> exact whole
    · split
      · have whole := Lexeme.splitWhile_append Text.isNamePart (c :: cs)
        simp only [ofWord]
        split <;> exact whole
      · unfold ofMark
        split
        · simp
        · split <;> simp

theorem chars_ne_nil (c : Char) (cs : List Char) : (of c cs).chars ≠ [] := by
  unfold of
  split
  · simp [ofString]
  · split
    · next starts => exact ofNumber_chars_ne_nil starts
    · split
      · next starts =>
        have part : Text.isNamePart c = true := by simp [Text.isNamePart, starts]
        simp only [ofWord]
        split <;> simp [Lexeme.splitWhile, part]
      · unfold ofMark
        split
        · simp
        · split <;> simp

/-- What the kind of a first token says about it. It is never the end of the file. -/
theorem of_kind_spec (c : Char) (cs : List Char) : (of c cs).kind ≠ .endOfFile ∧
    ((of c cs).kind = .invalid → (of c cs).fault ≠ none) ∧
    ((of c cs).kind = .number → Decimal.ofChars? (of c cs).chars ≠ none) := by
  unfold of
  split
  · simp [ofString]
  · split
    · simp only [ofNumber]
      split <;> simp [*]
    · split
      · simp only [ofWord]
        split <;> simp
      · unfold ofMark
        split
        · simp
        · split <;> simp

end FirstLexeme

end Idl
