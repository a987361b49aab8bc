/-!
# Rounding of quotients

A quotient goes to the nearest integer, a half to the even neighbour. Fixed-point text is the
rounded quotient at the scale of its last place.
-/

set_option autoImplicit false

namespace Relocate.Number

/-- The integer nearest to `num / den`, for a half the even one. -/
def roundDiv (num den : Nat) : Nat :=
  let q := num / den
  let r := num % den
  if 2 * r < den then q
  else if den < 2 * r then q + 1
  else q + q % 2

def fixed (places num den : Nat) : String :=
  let unit := Nat.pow 10 places
  let scaled := roundDiv (num * unit) den
  let fraction := toString (scaled % unit)
  let zeros := String.ofList (List.replicate (places - fraction.length) '0')
  s!"{scaled / unit}.{zeros}{fraction}"

end Relocate.Number
