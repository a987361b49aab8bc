import Relocate.Matching.Config
import Relocate.Proofs.Number.Nearest

/-!
# Thresholds

Passing the threshold above a binary number means that the binary number nearest to the score lies
above it. A score that passes still passes when more is in common.
-/

set_option autoImplicit false

namespace Relocate.Matching

open Relocate.Number

namespace Score

def value (s : Score) : ℚ := s.common / s.total

def nearest (s : Score) : Binary64 := .nearest false s.common s.total

theorem value_nonneg (s : Score) : 0 ≤ s.value := by
  rw [value]
  positivity

theorem value_le_one {s : Score} (h : s.common ≤ s.total) : s.value ≤ 1 := by
  apply div_le_one_of_le₀
  · exact_mod_cast h
  · positivity

theorem below_iff {s t : Score} (hs : 0 < s.total) (ht : 0 < t.total) :
    s.below t = true ↔ s.value < t.value := by
  have hs' : (0 : ℚ) < s.total := by exact_mod_cast hs
  have ht' : (0 : ℚ) < t.total := by exact_mod_cast ht
  rw [below, decide_eq_true_eq, value, value, div_lt_div_iff₀ hs' ht']
  exact_mod_cast Iff.rfl

end Score

namespace Threshold

variable {s s' : Score}

theorem passes_mono {t : Threshold} (htotal : s'.total = s.total) (hcommon : s.common ≤ s'.common)
    (h : t.passes s = true) : t.passes s' = true := by
  cases t with
  | always => rfl
  | never => exact h
  | beyond num den inclusive =>
    have hle : s.common * den ≤ s'.common * den := Nat.mul_le_mul_right den hcommon
    simp only [passes, Bool.or_eq_true, Bool.and_eq_true, decide_eq_true_eq, beq_iff_eq, htotal]
      at h ⊢
    by_cases hlt : num * s.total < s'.common * den
    · exact Or.inl hlt
    · exact Or.inr ⟨(h.resolve_left (by omega)).1, by omega⟩

/-- A fraction is passed by what lies past the half-way point that it stands for. -/
theorem passes_beyond_iff (hs : 0 < s.total) (m : Nat) (e : Int) :
    (beyond (Binary64.fraction (2 * m + 1) (e - 1)).1 (Binary64.fraction (2 * m + 1) (e - 1)).2
        (m % 2 == 1)).passes s = true ↔ Binary64.PastHalf m e (s.common / s.total) := by
  obtain ⟨hden, hvalue⟩ := Binary64.fraction_eq (2 * m + 1) (e - 1)
  generalize Binary64.fraction (2 * m + 1) (e - 1) = f at hden hvalue
  obtain ⟨num, den⟩ := f
  have hden' : (0 : ℚ) < den := by exact_mod_cast hden
  have htotal : (0 : ℚ) < s.total := by exact_mod_cast hs
  push_cast at hvalue
  simp only [passes, Bool.or_eq_true, Bool.and_eq_true, decide_eq_true_eq, beq_iff_eq,
    Binary64.PastHalf, ← hvalue]
  rw [div_lt_div_iff₀ hden' htotal, div_eq_div_iff hden'.ne' htotal.ne', and_comm]
  exact_mod_cast Iff.rfl

theorem passes_beyond_zero {num den : Nat} {inclusive : Bool} (hnum : 0 < num) (hs : 0 < s.total)
    (hzero : s.common = 0) : (beyond num den inclusive).passes s = false := by
  have hpos : 0 < num * s.total := Nat.mul_pos hnum hs
  simp only [passes, hzero, Nat.zero_mul, Nat.not_lt_zero, decide_false, Bool.false_or,
    Bool.and_eq_false_imp, beq_eq_false_iff_ne]
  intro _
  omega

theorem fraction_pos {m : Nat} (e : Int) (hm : 0 < m) : 0 < (Binary64.fraction m e).1 := by
  rw [Binary64.fraction]
  split
  · exact Nat.mul_pos hm (Nat.pow_pos (by decide))
  · exact hm

theorem passes_above_iff {x : Binary64} (hx : x.Canonical) (hs : 0 < s.total) :
    (above x).passes s = true ↔ x.Below s.nearest := by
  have hnonneg := Binary64.nearest_nonneg s.common s.total hs
  rw [← Score.nearest] at hnonneg
  cases x with
  | nan => simp [above, passes, Binary64.Below]
  | infinity negative =>
    rcases hnonneg with ⟨k, f, hnear⟩ | hnear <;> rw [hnear] <;>
      cases negative <;> simp [above, passes, Binary64.Below]
  | finite negative m e =>
    by_cases hneg : negative = true ∧ m ≠ 0
    · have hm : (0 : ℚ) < m := by exact_mod_cast Nat.pos_of_ne_zero hneg.2
      have hpow : (0 : ℚ) < 2 ^ e := zpow_pos (by norm_num) e
      have habove : above (.finite negative m e) = always := by simp [above, hneg]
      rw [habove]
      apply iff_of_true rfl
      rcases hnonneg with ⟨k, f, hnear⟩ | hnear
      · have hk : (0 : ℚ) ≤ k * 2 ^ f := by positivity
        rw [hnear, Binary64.Below, Binary64.signed, Binary64.signed]
        simp only [hneg.1, if_true, Bool.false_eq_true, if_false]
        nlinarith
      · rw [hnear, Binary64.Below]
    -- a zero is compared by its value, whatever its sign
    · have habove : above (.finite negative m e) =
          beyond (Binary64.fraction (2 * m + 1) (e - 1)).1
            (Binary64.fraction (2 * m + 1) (e - 1)).2 (m % 2 == 1) := by
        have hsign : (negative && m != 0) = false := by
          cases negative <;> simp_all
        simp [above, hsign]
      have hvalue : Binary64.signed negative m e = Binary64.signed false m e := by
        cases negative with
        | false => rfl
        | true =>
          have hm : m = 0 := by simpa using hneg
          simp [Binary64.signed, hm]
      have hbelow : (Binary64.finite negative m e).Below s.nearest ↔
          (Binary64.finite false m e).Below s.nearest := by
        rcases hnonneg with ⟨k, f, hnear⟩ | hnear
        · rw [hnear, Binary64.Below, Binary64.Below, hvalue]
        · rw [hnear, Binary64.Below, Binary64.Below]
      rw [habove, hbelow]
      rcases Nat.eq_zero_or_pos s.common with hzero | hcommon
      · have hpow : (0 : ℚ) < 2 ^ e := zpow_pos (by norm_num) e
        rw [passes_beyond_zero (fraction_pos (e - 1) (by omega)) hs hzero, Score.nearest, hzero,
          Binary64.nearest, if_pos rfl, Binary64.zero, Binary64.Below, Binary64.signed,
          Binary64.signed]
        simp only [Bool.false_eq_true, if_false, Nat.cast_zero, mul_zero, zero_mul, one_mul,
          false_iff, not_lt]
        positivity
      · rw [passes_beyond_iff hs, Score.nearest, Binary64.below_nearest_iff hcommon hs hx]

theorem passes_above_eq_false {x : Binary64} (hx : ¬ x.Below .one) (hs : 0 < s.total)
    (hle : s.common ≤ s.total) : (above x).passes s = false := by
  cases x with
  | nan => rfl
  | infinity negative =>
    cases negative with
    | true => exact absurd rfl hx
    | false => rfl
  | finite negative m e =>
    have hone : 1 ≤ Binary64.signed negative m e := by
      rw [← Binary64.signed_one]
      exact not_lt.1 hx
    have hpow : (0 : ℚ) < 2 ^ e := zpow_pos (by norm_num) e
    have hm : (0 : ℚ) ≤ m * 2 ^ e := by positivity
    obtain rfl : negative = false := by
      rw [Binary64.signed] at hone
      split at hone
      · linarith
      · rename_i hsign
        exact eq_false_of_ne_true hsign
    -- the half-way point past such a number lies past 1, too
    obtain ⟨hden, hvalue⟩ := Binary64.fraction_eq (2 * m + 1) (e - 1)
    simp only [above, passes, Bool.false_and, Bool.false_eq_true, if_false]
    generalize Binary64.fraction (2 * m + 1) (e - 1) = f at hden hvalue
    obtain ⟨num, den⟩ := f
    have hden' : (0 : ℚ) < den := by exact_mod_cast hden
    have hlt : den < num := by
      have hpast : (1 : ℚ) < num / den := by
        rw [Binary64.signed, if_neg Bool.false_ne_true] at hone
        push_cast at hvalue
        rw [hvalue, Binary64.half_mul]
        linarith
      rw [one_lt_div hden'] at hpast
      exact_mod_cast hpast
    have hcross : s.common * den < num * s.total :=
      calc s.common * den ≤ s.total * den := Nat.mul_le_mul_right den hle
        _ < s.total * num := Nat.mul_lt_mul_of_pos_left hlt hs
        _ = num * s.total := Nat.mul_comm _ _
    simp only [Bool.or_eq_false_iff, decide_eq_false_iff_not, Bool.and_eq_false_imp,
      beq_eq_false_iff_ne]
    exact ⟨by omega, fun _ => by omega⟩

end Threshold

end Relocate.Matching
