import Idl.Number.Binary64

/-!
Decimal literals: an optional minus, digits, optionally a point with digits, optionally an
exponent. `Decimal.ofChars?` accepts exactly these texts and `Decimal.toBinary64` reads one as the
nearest binary64 number.
-/

namespace Idl

/-- The number `± digits · 10 ^ exponent`. -/
structure Decimal where
  negative : Bool
  digits : List Char
  exponent : Int
deriving DecidableEq, Repr

namespace Decimal

def natOfDigits (digits : List Char) : Nat :=
  digits.foldl (fun value digit => 10 * value + (digit.toNat - '0'.toNat)) 0

def splitMinus : List Char → Bool × List Char
  | '-' :: rest => (true, rest)
  | text => (false, text)

/-- Reads an exponent mark with its digits, up to the end of the text. No mark is exponent 0. -/
def exponentOf? : List Char → Option Int
  | [] => some 0
  | mark :: rest =>
    if mark = 'e' ∨ mark = 'E' then
      let (negative, digits) :=
        match rest with
        | '-' :: digits => (true, digits)
        | '+' :: digits => (false, digits)
        | digits => (false, digits)
      if digits ≠ [] ∧ digits.all Char.isDigit then
        let value : Int := natOfDigits digits
        some (if negative then -value else value)
      else none
    else none

/-- Reads the digits after a point, if there is one, and then the exponent. -/
def ofTail? (negative : Bool) (whole : List Char) : List Char → Option Decimal
  | '.' :: rest =>
    let (fraction, rest) := rest.span Char.isDigit
    if fraction = [] then none
    else
      (exponentOf? rest).map fun exponent =>
        ⟨negative, whole ++ fraction, exponent - fraction.length⟩
  | rest => (exponentOf? rest).map fun exponent => ⟨negative, whole, exponent⟩

def ofChars? (text : List Char) : Option Decimal :=
  let (negative, rest) := splitMinus text
  let (whole, rest) := rest.span Char.isDigit
  if whole = [] then none else ofTail? negative whole rest

/-- The binary64 number nearest to the literal. Literals whose leading digit stands so far from
the point that they round to zero or to infinity are decided without building the power of ten. -/
def toBinary64 (d : Decimal) : Binary64 :=
  let significant := d.digits.dropWhile (· == '0')
  let lead : Int := significant.length + d.exponent
  let value := natOfDigits significant
  if value = 0 ∨ lead < -400 then .ofRatio d.negative 0 1
  else if 400 < lead then .ofRatio d.negative (Nat.pow 10 400) 1
  else if 0 ≤ d.exponent then .ofRatio d.negative (value * Nat.pow 10 d.exponent.toNat) 1
  else .ofRatio d.negative value (Nat.pow 10 (-d.exponent).toNat)

end Decimal

end Idl
