import Mathlib.Algebra.Order.Field.Power
import Mathlib.Data.Nat.Log
import Mathlib.Data.Rat.Cast.Order
import Mathlib.Tactic.FieldSimp
import Mathlib.Tactic.Linarith
import Mathlib.Tactic.Positivity
import Mathlib.Tactic.Ring
import Relocate.Number.Binary64

/-!
# The binary number nearest to a quotient

A positive quotient is scaled so that 53 bits are in front of the point, or to the least exponent,
and then rounded. So the binary number nearest to it lies above a given one exactly when the
quotient lies above the half-way point to the next one, or on it when the given mantissa is odd.
-/

set_option autoImplicit false

namespace Relocate.Number

theorem lt_roundDiv_iff {m num den : Nat} (h : 0 < den) :
    m < roundDiv num den ↔
      (2 * m + 1) * den < 2 * num ∨ (2 * m + 1) * den = 2 * num ∧ m % 2 = 1 := by
  have hnum := Nat.div_add_mod num den
  have hr := Nat.mod_lt num h
  generalize num / den = q at hnum
  generalize hrest : num % den = r at hnum hr
  have hdiv : num / den = q := by
    rw [← hnum, Nat.mul_add_div h, Nat.div_eq_of_lt hr, Nat.add_zero]
  simp only [roundDiv, hdiv, hrest]
  have hle : m < q → (2 * m + 2) * den ≤ 2 * (den * q) := by
    intro hmq
    nlinarith
  have hge : q ≤ m → 2 * (den * q) + den ≤ (2 * m + 1) * den := by
    intro hqm
    nlinarith
  have hgt : q < m → 2 * (den * q) + 3 * den ≤ (2 * m + 1) * den := by
    intro hqm
    nlinarith
  have heq : m = q → (2 * m + 1) * den = 2 * (den * q) + den := by
    rintro rfl
    ring
  have hadd : (2 * m + 2) * den = (2 * m + 1) * den + den := by ring
  rcases Nat.lt_trichotomy m q with hlt | rfl | hlt
  · have := hle hlt
    repeat' split
    all_goals omega
  · have := heq rfl
    repeat' split
    all_goals omega
  · have := hgt hlt
    repeat' split
    all_goals omega

namespace Binary64

def signed (negative : Bool) (mantissa : Nat) (exponent : Int) : ℚ :=
  (if negative then -1 else 1) * mantissa * 2 ^ exponent

/-- Strictly below, as numbers compare: nothing is below or above `nan`. -/
def Below : Binary64 → Binary64 → Prop
  | nan, _ => False
  | _, nan => False
  | infinity n, infinity m => n = true ∧ m = false
  | infinity n, finite .. => n = true
  | finite .., infinity n => n = false
  | finite n m e, finite k l f => signed n m e < signed k l f

/-- The mantissa has 53 bits unless the exponent is the least one. -/
def Canonical : Binary64 → Prop
  | finite _ m e =>
    m < 2 * leastMantissa ∧ -1074 ≤ e ∧ e ≤ 971 ∧ (leastMantissa ≤ m ∨ e = -1074)
  | _ => True

theorem leastMantissa_eq : leastMantissa = 2 ^ 52 := by decide

def one : Binary64 := finite false leastMantissa (-52)

theorem signed_one : signed false leastMantissa (-52) = 1 := by
  rw [signed, leastMantissa_eq]
  norm_num

theorem fraction_eq (m : Nat) (e : Int) :
    0 < (fraction m e).2 ∧ ((fraction m e).1 : ℚ) / (fraction m e).2 = m * 2 ^ e := by
  rw [fraction]
  split
  · rename_i h
    obtain ⟨k, rfl⟩ := Int.eq_ofNat_of_zero_le h
    simp
  · rename_i h
    obtain ⟨k, hk⟩ := Int.eq_ofNat_of_zero_le (show 0 ≤ -e by omega)
    obtain rfl : e = -k := by omega
    simp [div_eq_mul_inv]

theorem scaled_eq (num : Nat) {den : Nat} (h : 0 < den) (e : Int) :
    0 < (scaled num den e).2 ∧
      ((scaled num den e).1 : ℚ) / (scaled num den e).2 = num / den / 2 ^ e := by
  rw [scaled]
  split
  · rename_i he
    obtain ⟨k, rfl⟩ := Int.eq_ofNat_of_zero_le he
    simp [h, div_div]
  · rename_i he
    obtain ⟨k, hk⟩ := Int.eq_ofNat_of_zero_le (show 0 ≤ -e by omega)
    obtain rfl : e = -k := by omega
    simp [h, div_eq_mul_inv, mul_right_comm]

/-- The leading bits of numerator and denominator tell the quotient up to a factor of 2. -/
theorem quotient_bounds {num den : Nat} (hn : 0 < num) (hd : 0 < den) :
    (2 : ℚ) ^ ((num.log2 : Int) - den.log2 - 1) < num / den ∧
      (num : ℚ) / den < 2 ^ ((num.log2 : Int) - den.log2 + 1) := by
  have hn₁ : ((2 ^ num.log2 : Nat) : ℚ) ≤ num := by
    exact_mod_cast Nat.log2_self_le (by omega)
  have hn₂ : (num : ℚ) < ((2 ^ (num.log2 + 1) : Nat) : ℚ) := by
    exact_mod_cast Nat.lt_log2_self
  have hd₁ : ((2 ^ den.log2 : Nat) : ℚ) ≤ den := by
    exact_mod_cast Nat.log2_self_le (by omega)
  have hd₂ : (den : ℚ) < ((2 ^ (den.log2 + 1) : Nat) : ℚ) := by
    exact_mod_cast Nat.lt_log2_self
  have hpos : (0 : ℚ) < den := by exact_mod_cast hd
  push_cast at hn₁ hn₂ hd₁ hd₂
  rw [lt_div_iff₀ hpos, div_lt_iff₀ hpos]
  constructor
  · calc (2 : ℚ) ^ ((num.log2 : Int) - den.log2 - 1) * den
        < 2 ^ ((num.log2 : Int) - den.log2 - 1) * 2 ^ (den.log2 + 1) := by gcongr
      _ = 2 ^ num.log2 := by
        rw [← zpow_natCast, ← zpow_natCast, ← zpow_add₀ (by norm_num)]
        congr 1
        push_cast
        ring
      _ ≤ num := hn₁
  · calc (num : ℚ) < 2 ^ (num.log2 + 1) := hn₂
      _ = 2 ^ ((num.log2 : Int) - den.log2 + 1) * 2 ^ den.log2 := by
        rw [← zpow_natCast, ← zpow_natCast, ← zpow_add₀ (by norm_num)]
        congr 1
        push_cast
        ring
      _ ≤ 2 ^ ((num.log2 : Int) - den.log2 + 1) * den := by gcongr

/-- Scaled to its exponent, a positive quotient has 53 bits in front of the point, or fewer if the
exponent is the least one. -/
theorem exponentOf_spec {num den : Nat} (hn : 0 < num) (hd : 0 < den) :
    -1074 ≤ exponentOf num den ∧
      (num : ℚ) / den < 2 * leastMantissa * 2 ^ exponentOf num den ∧
      (exponentOf num den = -1074 ∨
        (leastMantissa : ℚ) * 2 ^ exponentOf num den ≤ (num : ℚ) / den) := by
  obtain ⟨hlow, hhigh⟩ := quotient_bounds hn hd
  generalize he : (num.log2 : Int) - den.log2 - 52 = e
  obtain ⟨hpos, hscaled⟩ := scaled_eq num hd e
  have hmantissa : (leastMantissa : ℚ) = 2 ^ (52 : Int) := by
    rw [leastMantissa_eq]
    norm_num
  have hpow : ∀ k : Int, 0 < (2 : ℚ) ^ k := fun k => zpow_pos (by norm_num) k
  have hsplit : ∀ j k : Int, (2 : ℚ) ^ (j + k) = 2 ^ j * 2 ^ k := fun j k =>
    zpow_add₀ (by norm_num) j k
  have htest : (scaled num den e).1 < (scaled num den e).2 * leastMantissa ↔
      (num : ℚ) / den < leastMantissa * 2 ^ e := by
    have hden : (0 : ℚ) < (scaled num den e).2 := by exact_mod_cast hpos
    rw [← div_lt_iff₀ (hpow e), ← hscaled, div_lt_iff₀ hden, mul_comm]
    exact_mod_cast Iff.rfl
  have hexp : exponentOf num den =
      max (if (scaled num den e).1 < (scaled num den e).2 * leastMantissa then e - 1 else e)
        (-1074) := by
    rw [exponentOf, he]
  have hlow' : (num : ℚ) / den ≥ leastMantissa * 2 ^ (e - 1) := by
    rw [hmantissa, ← hsplit, show (52 : Int) + (e - 1) = (num.log2 : Int) - den.log2 - 1 by omega]
    exact hlow.le
  have hhigh' : (num : ℚ) / den < 2 * leastMantissa * 2 ^ e := by
    rw [hmantissa, show (2 : ℚ) * 2 ^ (52 : Int) = 2 ^ (53 : Int) by norm_num, ← hsplit,
      show (53 : Int) + e = (num.log2 : Int) - den.log2 + 1 by omega]
    exact hhigh
  have hhalf : (2 : ℚ) * 2 ^ (e - 1) = 2 ^ e := by
    rw [← zpow_one_add₀ (by norm_num)]
    congr 1
    ring
  -- the exponent before it is kept in range
  generalize hraw : (if (scaled num den e).1 < (scaled num den e).2 * leastMantissa then e - 1
    else e) = raw at hexp
  have hrange : (leastMantissa : ℚ) * 2 ^ raw ≤ num / den ∧
      (num : ℚ) / den < 2 * leastMantissa * 2 ^ raw := by
    rw [← hraw]
    split
    · rename_i h
      refine ⟨hlow', ?_⟩
      rw [mul_right_comm, hhalf, mul_comm]
      exact htest.1 h
    · rename_i h
      exact ⟨not_lt.1 fun hlt => h (htest.2 hlt), hhigh'⟩
  rw [hexp]
  refine ⟨le_max_right _ _, hrange.2.trans_le ?_, ?_⟩
  · gcongr
    · norm_num
    · exact le_max_left _ _
  · rcases le_total raw (-1074) with h | h
    · exact Or.inl (max_eq_right h)
    · right
      rw [max_eq_left h]
      exact hrange.1

/-- A quotient lies above the point half-way from this number to the next one, or on it when the
mantissa is odd. -/
def PastHalf (mantissa : Nat) (exponent : Int) (quotient : ℚ) : Prop :=
  (2 * mantissa + 1) * 2 ^ (exponent - 1) < quotient ∨
    (2 * mantissa + 1) * 2 ^ (exponent - 1) = quotient ∧ mantissa % 2 = 1

theorem half_mul (c : ℚ) (e : Int) : (2 * c + 1) * 2 ^ (e - 1) = (c + 1 / 2) * 2 ^ e := by
  rw [zpow_sub_one₀ (by norm_num)]
  ring

theorem lt_rounded_iff {num den m : Nat} (hd : 0 < den) (e : Int) :
    m < roundDiv (scaled num den e).1 (scaled num den e).2 ↔ PastHalf m e (num / den) := by
  obtain ⟨hpos, hscaled⟩ := scaled_eq num hd e
  have hden : (0 : ℚ) < (scaled num den e).2 := by exact_mod_cast hpos
  have hpow : (0 : ℚ) < 2 ^ e := zpow_pos (by norm_num) e
  have hquot : (num : ℚ) / den = (scaled num den e).1 / (scaled num den e).2 * 2 ^ e := by
    rw [hscaled, div_mul_cancel₀ _ hpow.ne']
  have hpast : PastHalf m e (num / den) ↔
      (2 * m + 1 : ℚ) * (scaled num den e).2 < 2 * (scaled num den e).1 ∨
        (2 * m + 1 : ℚ) * (scaled num den e).2 = 2 * (scaled num den e).1 ∧ m % 2 = 1 := by
    rw [PastHalf, half_mul, hquot, mul_lt_mul_iff_left₀ hpow, mul_left_inj' hpow.ne',
      lt_div_iff₀ hden, eq_div_iff hden.ne']
    apply or_congr
    · constructor <;> intro h <;> linarith
    · apply and_congr_left
      intro _
      constructor <;> intro h <;> linarith
  rw [lt_roundDiv_iff hpos, hpast]
  exact_mod_cast Iff.rfl

/-- A number with a lower exponent is below every number with a full mantissa. -/
theorem lt_of_exponent_lt {m k : Nat} {e f : Int} (hm : m < 2 * leastMantissa) (hef : e < f)
    (hk : leastMantissa ≤ k) : (m + 1 : ℚ) * 2 ^ e ≤ k * 2 ^ f := by
  have hm' : (m : ℚ) + 1 ≤ 2 * leastMantissa := by exact_mod_cast hm
  have hk' : (leastMantissa : ℚ) ≤ k := by exact_mod_cast hk
  calc (m + 1 : ℚ) * 2 ^ e ≤ 2 * leastMantissa * 2 ^ e := by gcongr
    _ = leastMantissa * 2 ^ (e + 1) := by
      rw [zpow_add_one₀ (by norm_num)]
      ring
    _ ≤ k * 2 ^ f := by
      gcongr
      · norm_num
      · omega

def rounded (num den : Nat) : Nat :=
  roundDiv (scaled num den (exponentOf num den)).1 (scaled num den (exponentOf num den)).2

theorem rounded_bounds {num den : Nat} (hn : 0 < num) (hd : 0 < den) :
    rounded num den ≤ 2 * leastMantissa ∧
      (exponentOf num den = -1074 ∨ leastMantissa ≤ rounded num den) := by
  obtain ⟨-, hhigh, hlow⟩ := exponentOf_spec hn hd
  rw [rounded]
  have hpow : (0 : ℚ) < 2 ^ exponentOf num den := zpow_pos (by norm_num) _
  constructor
  · rw [← not_lt, lt_rounded_iff hd, PastHalf, half_mul, not_or, not_lt]
    push_cast
    refine ⟨by nlinarith, fun h => ?_⟩
    nlinarith [h.1]
  · rcases hlow with hleast | hlow
    · exact Or.inl hleast
    · right
      have hone : leastMantissa - 1 + 1 = leastMantissa := by decide
      rw [← hone]
      apply Nat.succ_le_of_lt
      rw [lt_rounded_iff hd, PastHalf, half_mul]
      left
      have hcast : ((leastMantissa - 1 : Nat) : ℚ) = leastMantissa - 1 := by
        rw [Nat.cast_sub (by decide), Nat.cast_one]
      rw [hcast]
      nlinarith

/-- The rounded quotient is above a number exactly when the quotient is past its half-way point. -/
theorem lt_nearest_value_iff {num den m : Nat} {e : Int} (hn : 0 < num) (hd : 0 < den)
    (hx : Canonical (finite false m e)) :
    (m : ℚ) * 2 ^ e < rounded num den * 2 ^ exponentOf num den ↔
      PastHalf m e (num / den) := by
  obtain ⟨hm, hleast, -, hfull⟩ := hx
  obtain ⟨hmin, hhigh, hlow⟩ := exponentOf_spec hn hd
  obtain ⟨hround, hround'⟩ := rounded_bounds hn hd
  have hstep : m < rounded num den ↔ _ := lt_rounded_iff hd (exponentOf num den)
  generalize rounded num den = r at *
  generalize exponentOf num den = f at *
  generalize (num : ℚ) / den = q at *
  have hpow : (0 : ℚ) < 2 ^ e := zpow_pos (by norm_num) e
  have hpow' : (0 : ℚ) < 2 ^ f := zpow_pos (by norm_num) f
  -- with different exponents these decide, since mantissas are full above the least one
  rcases lt_trichotomy e f with hef | rfl | hef
  · have hr : leastMantissa ≤ r := by omega
    have hup := lt_of_exponent_lt hm hef hr
    have hup' := lt_of_exponent_lt hm hef (le_refl leastMantissa)
    have hq := hlow.resolve_left (by omega)
    apply iff_of_true
    · nlinarith
    · rw [PastHalf, half_mul]
      left
      nlinarith
  · rw [mul_lt_mul_iff_left₀ hpow, Nat.cast_lt, hstep]
  · have hfull : leastMantissa ≤ m := by omega
    have hm' : (leastMantissa : ℚ) ≤ m := by exact_mod_cast hfull
    have hr : (r : ℚ) ≤ 2 * leastMantissa := by exact_mod_cast hround
    have hdown : 2 * leastMantissa * 2 ^ f ≤ (m : ℚ) * 2 ^ e := by
      calc (2 * leastMantissa * 2 ^ f : ℚ) = leastMantissa * 2 ^ (f + 1) := by
            rw [zpow_add_one₀ (by norm_num)]
            ring
        _ ≤ m * 2 ^ e := by
            gcongr
            · norm_num
            · omega
    apply iff_of_false
    · nlinarith
    · rw [PastHalf, half_mul, not_or, not_lt]
      refine ⟨by nlinarith, fun h => ?_⟩
      nlinarith [h.1]

def maxExponent : Int := 971

theorem nearest_eq {num : Nat} (den : Nat) (hn : 0 < num) :
    ∃ k f, nearest false num den =
        (if maxExponent < f then infinity false else finite false k f) ∧
      (rounded num den = 2 * leastMantissa ∧ k = leastMantissa ∧ f = exponentOf num den + 1 ∨
        rounded num den ≠ 2 * leastMantissa ∧ k = rounded num den ∧ f = exponentOf num den) := by
  generalize hx : nearest false num den = x
  rw [nearest, if_neg (Nat.pos_iff_ne_zero.1 hn)] at hx
  extract_lets e at hx
  split at hx
  rename_i n d hscaled
  extract_lets m at hx
  have hm : m = rounded num den := by
    rw [rounded, show exponentOf num den = e from rfl, hscaled]
  split at hx
  rename_i k f hcarry
  refine ⟨k, f, hx.symm, ?_⟩
  rw [hm] at hcarry
  split at hcarry
  · rename_i h
    cases hcarry
    exact Or.inl ⟨h, rfl, rfl⟩
  · rename_i h
    cases hcarry
    exact Or.inr ⟨h, rfl, rfl⟩

/-- The number nearest to a positive quotient has the rounded value, or is infinite if that is
beyond all finite numbers. -/
theorem nearest_cases {num den : Nat} (hn : 0 < num) (hd : 0 < den) :
    (∃ k f, nearest false num den = finite false k f ∧
      (k : ℚ) * 2 ^ f = rounded num den * 2 ^ exponentOf num den) ∨
    nearest false num den = infinity false ∧
      (2 * leastMantissa : ℚ) * 2 ^ maxExponent ≤
        rounded num den * 2 ^ exponentOf num den := by
  obtain ⟨-, hfull⟩ := rounded_bounds hn hd
  obtain ⟨k, f, hnear, hcarry⟩ := nearest_eq den hn
  have hvalue : (k : ℚ) * 2 ^ f = rounded num den * 2 ^ exponentOf num den := by
    rcases hcarry with ⟨hr, rfl, rfl⟩ | ⟨-, rfl, rfl⟩
    · rw [hr, zpow_add_one₀ (by norm_num)]
      push_cast
      ring
    · rfl
  rw [hnear, ← hvalue]
  split
  · rename_i hlarge
    have hmax : maxExponent = 971 := rfl
    have hk : leastMantissa ≤ k := by
      rcases hcarry with ⟨-, rfl, -⟩ | ⟨-, rfl, rfl⟩
      · exact Nat.le_refl _
      · exact hfull.resolve_left (by omega)
    have hk' : (leastMantissa : ℚ) ≤ k := by exact_mod_cast hk
    refine Or.inr ⟨rfl, ?_⟩
    calc (2 * leastMantissa : ℚ) * 2 ^ maxExponent = leastMantissa * 2 ^ (maxExponent + 1) := by
          rw [zpow_add_one₀ (by norm_num)]
          ring
      _ ≤ k * 2 ^ f := by
          gcongr
          · norm_num
          · omega
  · exact Or.inl ⟨k, f, rfl, rfl⟩

theorem below_nearest_iff {num den m : Nat} {e : Int} (hn : 0 < num) (hd : 0 < den)
    (hx : Canonical (finite false m e)) :
    (finite false m e).Below (nearest false num den) ↔ PastHalf m e (num / den) := by
  rw [← lt_nearest_value_iff hn hd hx]
  rcases nearest_cases hn hd with ⟨k, f, hnear, hvalue⟩ | ⟨hnear, hvalue⟩
  · rw [hnear, Below, signed, signed, ← hvalue]
    simp
  · rw [hnear, Below]
    obtain ⟨hm, -, hmax, -⟩ := hx
    have hm' : (m : ℚ) < 2 * leastMantissa := by exact_mod_cast hm
    apply iff_of_true rfl
    calc (m : ℚ) * 2 ^ e < 2 * leastMantissa * 2 ^ e := by gcongr
      _ ≤ 2 * leastMantissa * 2 ^ maxExponent := by
        gcongr
        · norm_num
        · exact hmax
      _ ≤ _ := hvalue

theorem nearest_nonneg (num den : Nat) (hd : 0 < den) :
    (∃ k f, nearest false num den = finite false k f) ∨
      nearest false num den = infinity false := by
  rcases Nat.eq_zero_or_pos num with rfl | hn
  · exact Or.inl ⟨0, -1074, rfl⟩
  · rcases nearest_cases hn hd with ⟨k, f, hnear, -⟩ | ⟨hnear, -⟩
    · exact Or.inl ⟨k, f, hnear⟩
    · exact Or.inr hnear

end Binary64

end Relocate.Number
