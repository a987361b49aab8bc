import Relocate.Number.Unsigned

/-!
# Decimal numbers read back

A number of 64 bits, written in decimal, is read as itself.
-/

set_option autoImplicit false

namespace Relocate.Number

theorem ofDigits_toDigits (n : Nat) : ofDigits (Nat.toDigits 10 n) = n :=
  Nat.ofDigitChars_toDigits (by decide) (by decide)

theorem isDigit_toDigits {n : Nat} {c : Char} (h : c ∈ Nat.toDigits 10 n) : isDigit c = true :=
  Nat.isDigit_of_mem_toDigits (by decide) (by decide) h

theorem withoutPlus_of_isDigit {cs : List Char} (h : ∀ c ∈ cs, isDigit c = true) :
    withoutPlus cs = cs := by
  unfold withoutPlus
  split
  · exact absurd (h '+' List.mem_cons_self) (by decide)
  · rfl

theorem toList_toString (n : Nat) : (toString n).toList = Nat.toDigits 10 n := by
  rw [Nat.toString_eq_repr, Nat.repr_eq_ofList_toDigits, String.toList_ofList]

theorem isDigit_of_mem_toString {n : Nat} {c : Char} (h : c ∈ (toString n).toList) :
    isDigit c = true := by
  rw [toList_toString] at h
  exact isDigit_toDigits h

theorem readUnsigned?_toString {n : Nat} (h : n ≤ unsignedLimit) :
    readUnsigned? (toString n).toList = some n := by
  have hdigits : ∀ c ∈ Nat.toDigits 10 n, isDigit c = true := fun c hc => isDigit_toDigits hc
  have hne : (Nat.toDigits 10 n).isEmpty = false := by
    rw [List.isEmpty_eq_false_iff]
    exact Nat.toDigits_ne_nil
  simp only [readUnsigned?, toList_toString, withoutPlus_of_isDigit hdigits, ofDigits_toDigits, hne,
    List.all_eq_true.2 hdigits, decide_eq_true h, Bool.not_false, Bool.and_self, if_true]

end Relocate.Number
