import Mathlib.Data.Int.Log
import Mathlib.Data.Rat.Floor
import Mathlib.Tactic.Positivity

/-!
# Double precision

Rounding to the binary64 format: 53 significant bits, to nearest, ties to even. Its range of
exponents is left out.
-/

namespace Ollama.Lib.Double

/-! ## §1  Rounding -/

def nearest (q : ℚ) : ℤ :=
  if q - ⌊q⌋ < 1 / 2 then ⌊q⌋
  else if 1 / 2 < q - ⌊q⌋ then ⌊q⌋ + 1
  else ⌊q⌋ + ⌊q⌋ % 2

def ulp (q : ℚ) : ℚ := 2 ^ (Int.log 2 |q| - 52)

def round (q : ℚ) : ℚ := nearest (q / ulp q) * ulp q

def ofInt (n : ℤ) : ℚ := round n

def mul (x y : ℚ) : ℚ := round (x * y)

def div (x y : ℚ) : ℚ := round (x / y)

/-- Conversion to an integer of 64 bits: towards zero, and the least one for a value out of
range. -/
def toInt (x : ℚ) : ℤ :=
  if x < -2 ^ 63 ∨ 2 ^ 63 ≤ x then -2 ^ 63 else if 0 ≤ x then ⌊x⌋ else ⌈x⌉

/-! ## §2  Numbers that are not rounded -/

def Value (q : ℚ) : Prop := ∃ m e : ℤ, |m| < 2 ^ 53 ∧ q = m * 2 ^ e

theorem nearest_intCast (n : ℤ) : nearest n = n := by
  unfold nearest
  rw [Int.floor_intCast, sub_self, if_pos (by norm_num)]

theorem round_zero : round 0 = 0 := by
  unfold round
  have hzero : nearest (0 / ulp 0) = 0 := by
    rw [zero_div]
    exact nearest_intCast 0
  rw [hzero, Int.cast_zero, zero_mul]

theorem abs_nearest_le (q : ℚ) : |(nearest q : ℚ)| ≤ |q| + 1 := by
  have hfloor := Int.floor_le q
  have hlt := Int.lt_floor_add_one q
  have hparity : ((⌊q⌋ % 2 : ℤ) : ℚ) = 0 ∨ ((⌊q⌋ % 2 : ℤ) : ℚ) = 1 := by
    rcases Int.emod_two_eq_zero_or_one ⌊q⌋ with h | h
    · exact .inl (by rw [h, Int.cast_zero])
    · exact .inr (by rw [h, Int.cast_one])
  have hnear : |(nearest q : ℚ) - q| ≤ 1 := by
    rw [abs_le]
    unfold nearest
    split
    · constructor <;> linarith
    split
    · rw [Int.cast_add, Int.cast_one]
      constructor <;> linarith
    · rw [Int.cast_add]
      rcases hparity with h | h <;> rw [h] <;> constructor <;> linarith
  calc |(nearest q : ℚ)| = |q + (nearest q - q)| := by rw [add_sub_cancel]
    _ ≤ |q| + |(nearest q : ℚ) - q| := abs_add_le _ _
    _ ≤ |q| + 1 := add_le_add_right hnear _

theorem abs_round_le (q : ℚ) : |round q| ≤ |q| + ulp q := by
  have hulp : 0 < ulp q := zpow_pos (by decide) _
  calc |(nearest (q / ulp q) : ℚ) * ulp q| = |(nearest (q / ulp q) : ℚ)| * ulp q := by
        rw [abs_mul, abs_of_pos hulp]
    _ ≤ (|q / ulp q| + 1) * ulp q :=
        mul_le_mul_of_nonneg_right (abs_nearest_le _) hulp.le
    _ = |q| + ulp q := by
        rw [abs_div, abs_of_pos hulp, add_mul, one_mul, div_mul_cancel₀ _ hulp.ne']

theorem round_value {q : ℚ} (h : Value q) : round q = q := by
  obtain ⟨m, e, hm, rfl⟩ := h
  rcases eq_or_ne m 0 with rfl | hne
  · rw [Int.cast_zero, zero_mul]
    exact round_zero
  have htwo : (0 : ℚ) < 2 := by decide
  have hpos : 0 < |(m : ℚ) * 2 ^ e| :=
    abs_pos.mpr (mul_ne_zero (Int.cast_ne_zero.mpr hne) (zpow_ne_zero e htwo.ne'))
  have hlt : |(m : ℚ) * 2 ^ e| < 2 ^ (53 + e) := by
    rw [abs_mul, abs_of_pos (zpow_pos htwo e), zpow_add₀ htwo.ne']
    refine mul_lt_mul_of_pos_right ?_ (zpow_pos htwo e)
    exact_mod_cast hm
  have hlog : Int.log 2 |(m : ℚ) * 2 ^ e| < 53 + e :=
    (Int.lt_zpow_iff_log_lt (by decide) hpos).mp hlt
  -- the last bit of the number is at or above the last bit of the format
  obtain ⟨k, hk⟩ : ∃ k : ℕ, e = (Int.log 2 |(m : ℚ) * 2 ^ e| - 52) + k :=
    ⟨(e - (Int.log 2 |(m : ℚ) * 2 ^ e| - 52)).toNat, by omega⟩
  have hulp : ulp (m * 2 ^ e) ≠ 0 := (zpow_pos htwo _).ne'
  have hscaled : (m : ℚ) * 2 ^ e = ((m * 2 ^ k : ℤ) : ℚ) * ulp (m * 2 ^ e) := by
    unfold ulp
    generalize Int.log 2 |(m : ℚ) * 2 ^ e| - 52 = l at hk
    rw [hk, zpow_add₀ htwo.ne', zpow_natCast]
    push_cast
    ring
  unfold round
  have hquot : (m : ℚ) * 2 ^ e / ulp (m * 2 ^ e) = ((m * 2 ^ k : ℤ) : ℚ) :=
    (div_eq_iff hulp).mpr hscaled
  rw [hquot, nearest_intCast]
  exact hscaled.symm

theorem toInt_mul_zero (x y : ℚ) : toInt (mul x (div (ofInt (0 : ℕ)) y)) = 0 := by
  have hzero : ofInt (0 : ℕ) = 0 := round_zero
  unfold mul div
  rw [hzero, zero_div, round_zero, mul_zero, round_zero]
  decide +kernel

theorem value_natCast {n : ℕ} (hn : n < 2 ^ 53) : Value n :=
  ⟨n, 0, by rw [Nat.abs_cast]; exact_mod_cast hn, by rw [zpow_zero, mul_one]; rfl⟩

theorem value_div {n : ℕ} (hn : n < 2 ^ 53) (k : ℕ) : Value (n / 2 ^ k) := by
  refine ⟨n, -k, ?_, ?_⟩
  · exact_mod_cast hn
  · rw [zpow_neg, zpow_natCast, div_eq_mul_inv]
    rfl

/-- A product of an integer and a quotient by a power of two, and its integral part, are exact
while they have 53 bits. -/
theorem toInt_mul_div {n s k : ℕ} (hn : n < 2 ^ 53) (hs : s < 2 ^ 53) (hk : k < 53)
    (h : n * s < 2 ^ 53) :
    toInt (mul (ofInt n) (div (ofInt s) (ofInt (2 ^ k : ℕ)))) = (n * s / 2 ^ k : ℕ) := by
  have hpow : 2 ^ k < 2 ^ 53 := Nat.pow_lt_pow_right (by decide) hk
  have hint : ∀ m : ℕ, m < 2 ^ 53 → ofInt m = m := fun m hm => round_value (value_natCast hm)
  have hquot : div s (2 ^ k : ℕ) = s / 2 ^ k := by
    push_cast
    exact round_value (value_div hs k)
  have hprod : mul n (s / 2 ^ k) = (n * s : ℕ) / 2 ^ k := by
    unfold mul
    have heq : (n : ℚ) * (s / 2 ^ k) = (n * s : ℕ) / 2 ^ k := by
      push_cast
      ring
    rw [heq]
    exact round_value (value_div h k)
  rw [hint n hn, hint s hs, hint _ hpow, hquot, hprod]
  have hfloor : ⌊((n * s : ℕ) : ℚ) / 2 ^ k⌋ = (n * s / 2 ^ k : ℕ) := by
    have := Rat.floor_natCast_div_natCast (n * s) (2 ^ k)
    push_cast at this ⊢
    exact this
  have hnonneg : (0 : ℚ) ≤ ((n * s : ℕ) : ℚ) / 2 ^ k := by positivity
  have hlt : ((n * s : ℕ) : ℚ) / 2 ^ k < 2 ^ 63 := by
    have hle : ((n * s : ℕ) : ℚ) / 2 ^ k ≤ (n * s : ℕ) :=
      div_le_self (Nat.cast_nonneg _) (one_le_pow₀ (by decide))
    have hcast : ((n * s : ℕ) : ℚ) < 2 ^ 53 := by exact_mod_cast h
    exact (hle.trans_lt hcast).trans (by norm_num)
  unfold toInt
  rw [if_neg (by
    rintro (hlow | hhigh)
    · have : (-2 ^ 63 : ℚ) < 0 := by norm_num
      exact absurd hnonneg (not_le.mpr (hlow.trans this))
    · exact absurd hhigh (not_le.mpr hlt)), if_pos hnonneg, hfloor]

end Ollama.Lib.Double
