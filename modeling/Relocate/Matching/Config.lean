import Relocate.Number.Binary64

/-!
# Matcher settings

A similarity is an exact fraction. A pair passes a threshold when the binary number nearest to its
similarity is strictly above it. That is the case from a certain fraction on, half-way between the
threshold and the next binary number, so the test needs no floating-point arithmetic and a higher
similarity passes whenever a lower one does.
-/

set_option autoImplicit false

namespace Relocate.Matching

open Relocate.Number

/-- A similarity: `common / total`, and 0 when `total` is 0. -/
structure Score where
  common : Nat
  total : Nat
  deriving DecidableEq, Inhabited

namespace Score

def zero : Score := ⟨0, 1⟩

def below (a b : Score) : Bool := a.common * b.total < b.common * a.total

def display (s : Score) : String := Binary64.fixedQuotient 6 s.common s.total

end Score

inductive Threshold where
  | always
  | never
  /-- Passed from `num / den` on; by that fraction itself only if `inclusive`. -/
  | beyond (num den : Nat) (inclusive : Bool)
  deriving DecidableEq, Inhabited

namespace Threshold

/-- The fractions whose nearest binary number is above the given number. The half-way fraction
rounds to the even mantissa of its two neighbours. -/
def above : Binary64 → Threshold
  | .nan => never
  | .infinity negative => if negative then always else never
  | .finite negative m e =>
    if negative && m != 0 then always
    else
      let (num, den) := Binary64.fraction (2 * m + 1) (e - 1)
      .beyond num den (m % 2 == 1)

def passes (t : Threshold) (s : Score) : Bool :=
  match t with
  | always => true
  | never => false
  | .beyond num den inclusive =>
    num * s.total < s.common * den || (inclusive && num * s.total == s.common * den)

end Threshold

structure Config where
  /-- Subtrees of this height or lower are left to the bottom-up phase. -/
  minHeight : Nat := 2
  /-- What a container pair's similarity has to pass. -/
  minDice : Threshold := .above (.finite false Binary64.leastMantissa (-53))
  /-- Reduced trees that together reach this size are not refined. -/
  maxSize : Nat := 100
  deriving DecidableEq, Inhabited

end Relocate.Matching
