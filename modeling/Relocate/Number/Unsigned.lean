/-!
# Unsigned 64-bit numbers in decimal

An optional plus sign and at least one ASCII digit, at most 18446744073709551615.
-/

set_option autoImplicit false

namespace Relocate.Number

def unsignedLimit : Nat := 18446744073709551615

def isDigit (c : Char) : Bool := '0' ≤ c && c ≤ '9'

def digitValue (c : Char) : Nat := c.toNat - '0'.toNat

def ofDigits (cs : List Char) : Nat :=
  cs.foldl (fun n c => 10 * n + digitValue c) 0

def withoutPlus : List Char → List Char
  | '+' :: cs => cs
  | cs => cs

def readUnsigned? (cs : List Char) : Option Nat :=
  let digits := withoutPlus cs
  if !digits.isEmpty && digits.all isDigit && ofDigits digits ≤ unsignedLimit then
    some (ofDigits digits)
  else
    none

theorem readUnsigned?_le {cs : List Char} {n : Nat} (h : readUnsigned? cs = some n) :
    n ≤ unsignedLimit := by
  simp only [readUnsigned?] at h
  split at h
  · simp_all
  · cases h

end Relocate.Number
