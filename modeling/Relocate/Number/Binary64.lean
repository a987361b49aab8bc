import Relocate.Number.Rounding
import Relocate.Number.Unsigned

/-!
# Binary floating-point numbers of 64 bits

A finite number is `mantissa * 2 ^ exponent` with a mantissa below `2 ^ 53` and an exponent from
-1074 to 971; the mantissa is at least `2 ^ 52` unless the exponent is -1074. A rational is rounded
to the nearest such number, a tie to the even mantissa. Texts are read in the usual notations:
digits with an optional point and exponent, `inf`, `infinity` and `nan` in any case, each with an
optional sign.
-/

set_option autoImplicit false

namespace Relocate.Number

inductive Binary64 where
  | nan
  | infinity (negative : Bool)
  | finite (negative : Bool) (mantissa : Nat) (exponent : Int)
  deriving DecidableEq, Inhabited

namespace Binary64

def leastMantissa : Nat := 4503599627370496

def zero (negative : Bool) : Binary64 := finite negative 0 (-1074)

def scaled (num den : Nat) (exponent : Int) : Nat × Nat :=
  if 0 ≤ exponent then (num, den * Nat.pow 2 exponent.toNat)
  else (num * Nat.pow 2 (-exponent).toNat, den)

/-- The exponent at which a positive quotient has a mantissa of 53 bits, within the range. -/
def exponentOf (num den : Nat) : Int :=
  let e : Int := (num.log2 : Int) - den.log2 - 52
  let (n, d) := scaled num den e
  max (if n < d * leastMantissa then e - 1 else e) (-1074)

def nearest (negative : Bool) (num den : Nat) : Binary64 :=
  if num = 0 then zero negative
  else
    let e := exponentOf num den
    let (n, d) := scaled num den e
    let m := roundDiv n d
    let (m, e) := if m = 2 * leastMantissa then (leastMantissa, e + 1) else (m, e)
    if 971 < e then infinity negative else finite negative m e

/-- The number nearest to `digits * 10 ^ exponent`. Far outside the range no power is formed. -/
def ofDecimal (negative : Bool) (digits : Nat) (exponent : Int) : Binary64 :=
  if digits = 0 then zero negative
  else
    let magnitude : Int := exponent + (digits.log2 / 3 : Nat)
    if exponent > 400 then infinity negative
    else if magnitude < -400 then zero negative
    else if 0 ≤ exponent then nearest negative (digits * Nat.pow 10 exponent.toNat) 1
    else nearest negative digits (Nat.pow 10 (-exponent).toNat)

def fraction (mantissa : Nat) (exponent : Int) : Nat × Nat :=
  if 0 ≤ exponent then (mantissa * Nat.pow 2 exponent.toNat, 1)
  else (mantissa, Nat.pow 2 (-exponent).toNat)

/-- The quotient `num / den`, rounded to a binary number first and then to some decimal places. -/
def fixedQuotient (places num den : Nat) : String :=
  match nearest false num den with
  | finite _ m e => let (n, d) := fraction m e; fixed places n d
  | _ => ""

def splitSign : List Char → Bool × List Char
  | '-' :: cs => (true, cs)
  | '+' :: cs => (false, cs)
  | cs => (false, cs)

def lower (c : Char) : Char := c.toLower

/-- An exponent part: `e` or `E`, an optional sign and at least one digit; nothing counts as 0. -/
def readExponent? : List Char → Option Int
  | [] => some 0
  | e :: cs =>
    if e = 'e' ∨ e = 'E' then
      let (negative, digits) := splitSign cs
      if !digits.isEmpty && digits.all isDigit then
        let n : Int := (ofDigits digits : Nat)
        some (if negative then -n else n)
      else none
    else none

def readDecimal? (negative : Bool) (cs : List Char) : Option Binary64 :=
  let whole := cs.takeWhile isDigit
  let rest := cs.dropWhile isDigit
  let (part, rest) := match rest with
    | '.' :: rest => (rest.takeWhile isDigit, rest.dropWhile isDigit)
    | _ => ([], rest)
  if whole.isEmpty && part.isEmpty then none
  else (readExponent? rest).map fun e =>
    ofDecimal negative (ofDigits (whole ++ part)) (e - (part.length : Nat))

def read? (cs : List Char) : Option Binary64 :=
  let (negative, body) := splitSign cs
  match String.ofList (body.map lower) with
  | "inf" | "infinity" => some (infinity negative)
  | "nan" => some nan
  | _ => readDecimal? negative body

end Binary64

end Relocate.Number
