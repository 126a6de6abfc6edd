/-!
Number literals as 64-bit floating point words.

A literal is kept as its IEEE 754 word, so two literals that differ in the sign of a zero or in
the payload of a NaN stay apart as values. `Binary64.compare` is the total order that decorator
arguments are sorted by: every NaN is equal to every other and above all numbers, and the two
zeros are equal.
-/

namespace Idl

structure Binary64 where
  bits : UInt64
deriving DecidableEq, Repr

namespace Binary64

/-- The word of positive infinity; larger words without the sign bit are NaNs. -/
def infinityBits : Nat := 0x7FF0000000000000

/-- The word of a negative zero, the sign bit alone. -/
def signBit : Nat := 0x8000000000000000

/-- The word without its sign. -/
def magnitude (x : Binary64) : Nat := x.bits.toNat % signBit

def isNegative (x : Binary64) : Bool := signBit ≤ x.bits.toNat

def isNaN (x : Binary64) : Bool := infinityBits < x.magnitude

/-- Where a number stands in the order of the reals; magnitudes order like the numbers they
encode, and both zeros stand at 0. A NaN stands above infinity. -/
def rank (x : Binary64) : Int :=
  if x.isNaN then infinityBits + 1
  else if x.isNegative then -(x.magnitude : Int)
  else x.magnitude

def compare (x y : Binary64) : Ordering := Ord.compare x.rank y.rank

/-- The quotient rounded to the nearest whole number, a half to the even neighbour. -/
def roundDiv (num den : Nat) : Nat :=
  let quotient := num / den
  let twice := 2 * (num % den)
  if twice < den then quotient
  else if den < twice then quotient + 1
  else quotient + quotient % 2

/-- The exponent `q` at which `num / den`, in units of `2 ^ q`, has 53 binary places before the
point, but at least the exponent -1074 of the smallest numbers. -/
def unitExponent (num den : Nat) : Int :=
  let guess : Int := (Nat.log2 num : Int) - Nat.log2 den - 52
  let below :=
    if 0 ≤ guess then num < den <<< (guess.toNat + 52)
    else num <<< (-guess).toNat < den <<< 52
  max (if below then guess - 1 else guess) (-1074)

/-- The word of the number nearest to the positive ratio `num / den`, ties to even. A significand
that rounds up to the next power of two carries into the exponent field, and a ratio too large
for any number carries up to infinity. -/
def ratioBits (num den : Nat) : Nat :=
  let q := unitExponent num den
  let significand :=
    if 0 ≤ q then roundDiv num (den <<< q.toNat) else roundDiv (num <<< (-q).toNat) den
  min ((q + 1074).toNat <<< 52 + significand) infinityBits

def ofRatio (negative : Bool) (num den : Nat) : Binary64 :=
  let word := if num = 0 then 0 else ratioBits num den
  ⟨UInt64.ofNat (if negative then signBit + word else word)⟩

end Binary64

end Idl
