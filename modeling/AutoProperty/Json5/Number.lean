/-! # Numbers of a JSON5 text

A number is kept the way it is written. It need not have a value that can be used: integers are
words of 64 bits, hexadecimal numbers words of 32 bits without a sign, and all others must round
to a finite double.
-/

namespace AutoProperty.Json5

/-- The sign that a number is written with. -/
inductive Sign where
  | none | plus | minus
deriving DecidableEq

inductive Number where
  | hexadecimal (sign : Sign) (value : Nat)
  | integer (sign : Sign) (value : Nat)
  /-- A number with a point or an exponent: `digits` times ten to the power `exponent`. -/
  | decimal (digits : Nat) (exponent : Int)
  | infinity (sign : Sign)
  | notANumber (sign : Sign)
deriving DecidableEq

/-- From here on a number rounds to infinity: the largest double and half a step more. -/
def overflowBound : Nat := .pow 2 1024 - .pow 2 970

/-- Whether `digits` times ten to the power `exponent` rounds to a finite double. Far from the bound
the number of digits decides. -/
def isFinite (digits : Nat) (exponent : Int) : Bool :=
  let magnitude := (Nat.toDigits 10 digits).length + exponent
  if digits = 0 || magnitude < 309 then
    true
  else if magnitude > 309 then
    false
  else
    digits * .pow 10 exponent.toNat < overflowBound * .pow 10 (-exponent).toNat

namespace Number

def isReadable : Number → Bool
  | hexadecimal sign value => sign = .none && value < .pow 2 32
  | integer sign value => if sign = .minus then value ≤ .pow 2 63 else value < .pow 2 63
  | decimal digits exponent => isFinite digits exponent
  | infinity sign => sign ≠ .plus
  | notANumber sign => sign ≠ .plus

end Number

end AutoProperty.Json5
