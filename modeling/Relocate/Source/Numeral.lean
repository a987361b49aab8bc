import Relocate.Number.Unsigned

/-!
# Numerals

The spellings of number literals. Each is described by a function that takes the longest such
spelling off the front of a text; the literal at a place is the longest of all, and the first kind
in the list on a tie.
-/

set_option autoImplicit false

namespace Relocate.Source.Numeral

abbrev Eater := List Char → Option (Nat × List Char)

def one (p : Char → Bool) : Eater
  | c :: cs => if p c then some (1, cs) else none
  | [] => none

def exactly (a : Char) : Eater := one (· == a)

def nothing : Eater := fun cs => some (0, cs)

def andThen (f g : Eater) : Eater := fun cs =>
  (f cs).bind fun (n, rest) => (g rest).map fun (m, rest) => (n + m, rest)

def orElse (f g : Eater) : Eater := fun cs => (f cs).or (g cs)

def maybe (f : Eater) : Eater := orElse f nothing

def chain (fs : List Eater) : Eater := fs.foldr andThen nothing

def beforeDouble : List Char → List Char
  | '_' :: '_' :: _ => []
  | c :: cs => c :: beforeDouble cs
  | [] => []

/-- Digits in groups; a single underscore stands between two groups, or any number if `many`. -/
def groups (many : Bool) (p : Char → Bool) : Eater
  | [] => none
  | c :: cs =>
    if p c then
      let run := (c :: cs).takeWhile (fun d => p d || d == '_')
      let run := if many then run else beforeDouble run
      let kept := (run.reverse.dropWhile (· == '_')).length
      some (kept, (c :: cs).drop kept)
    else none

def isNonZero (c : Char) : Bool := Number.isDigit c && c != '0'

def isHex (c : Char) : Bool :=
  Number.isDigit c || ('a' ≤ c && c ≤ 'f') || ('A' ≤ c && c ≤ 'F')

def isOctal (c : Char) : Bool := '0' ≤ c && c ≤ '7'

def isBinary (c : Char) : Bool := c == '0' || c == '1'

def either (a b : Char) : Eater := one (fun c => c == a || c == b)

def whole : Eater :=
  orElse (exactly '0')
    (chain [one isNonZero, maybe (andThen (maybe (exactly '_')) (groups true Number.isDigit))])

def decimals : Eater := groups false Number.isDigit

def hexDigits : Eater := groups false isHex

def longSuffix : Eater := maybe (either 'l' 'L')

def floatSuffix : Eater := one (fun c => "fFdD".toList.contains c)

def exponent : Eater := chain [either 'e' 'E', maybe (either '-' '+'), decimals]

def binaryExponent : Eater :=
  chain [either 'p' 'P', maybe (either '-' '+'), whole, maybe floatSuffix]

def decimalInteger : Eater := chain [whole, longSuffix]

def hexInteger : Eater := chain [exactly '0', either 'x' 'X', hexDigits, longSuffix]

def octalInteger : Eater :=
  chain [exactly '0', maybe (either 'o' 'O'), groups false isOctal, longSuffix]

def binaryInteger : Eater := chain [exactly '0', either 'b' 'B', groups false isBinary, longSuffix]

def decimalFloats : List Eater :=
  [chain [decimals, exactly '.', maybe decimals, maybe exponent, maybe floatSuffix],
   chain [exactly '.', decimals, maybe exponent, maybe floatSuffix],
   chain [whole, exponent, maybe floatSuffix],
   chain [whole, maybe exponent, floatSuffix]]

def hexFloat : Eater :=
  chain [exactly '0', either 'x' 'X',
    orElse (chain [maybe hexDigits, exactly '.', hexDigits])
      (andThen hexDigits (maybe (exactly '.'))),
    maybe binaryExponent]

def spellings : List (String × Eater) :=
  [("decimal_integer_literal", decimalInteger), ("hex_integer_literal", hexInteger),
   ("octal_integer_literal", octalInteger), ("binary_integer_literal", binaryInteger)] ++
  decimalFloats.map (fun f => ("decimal_floating_point_literal", f)) ++
  [("hex_floating_point_literal", hexFloat)]

def longer (cs : List Char) (best : Option (String × Nat)) (spelling : String × Eater) :
    Option (String × Nat) :=
  match (spelling.2 cs).map (·.1), best with
  | none, best => best
  | some n, none => some (spelling.1, n)
  | some n, some (kind, m) => if m < n then some (spelling.1, n) else some (kind, m)

def read? (cs : List Char) : Option (String × Nat) := spellings.foldl (longer cs) none

end Relocate.Source.Numeral
