import Mathlib.Tactic.Ring
import Mathlib.Data.Nat.Log

/-!
# Single precision

Non-negative finite values of the binary32 format, as multiples of 2⁻¹⁴⁹: 24
significant bits, rounded to nearest with ties to even.
-/

namespace Ollama.Lib.Single

/-! ## §1  Rounding -/

/-- Rounding `a / b` to an integer, ties to even. -/
def halfEven (a b : ℕ) : ℕ :=
  if 2 * (a % b) < b then a / b
  else if b < 2 * (a % b) then a / b + 1
  else a / b + a / b % 2

/-- The exponent of the last bit of a value of integral part `n`. -/
def exponent (n : ℕ) : ℕ := Nat.log 2 n - 23

/-- Rounding `num / den`. -/
def round (num den : ℕ) : ℕ :=
  halfEven num (den * 2 ^ exponent (num / den)) * 2 ^ exponent (num / den)

def one : ℕ := 2 ^ 149

def ofNat (n : ℕ) : ℕ := round (n * one) 1

def add (x y : ℕ) : ℕ := round (x + y) 1

def sub (x y : ℕ) : ℕ := round (x - y) 1

def mul (x y : ℕ) : ℕ := round (x * y) one

def half (x : ℕ) : ℕ := round x 2

/-- Conversion to an integer of 64 bits: towards zero. A value that is out of
range becomes the greatest integer, where the language leaves it open. -/
def toUint64 (x : ℕ) : ℕ := min (x / one) (2 ^ 64 - 1)

/-! ## §2  The values -/

def Value (n : ℕ) : Prop := 2 ^ exponent n ∣ n

theorem value_of_dvd {k n : ℕ} (hd : 2 ^ k ∣ n) (hn : n < 2 ^ (k + 24)) : Value n := by
  refine dvd_trans (pow_dvd_pow 2 ?_) hd
  have : Nat.log 2 n < k + 24 := Nat.log_lt_of_lt_pow' (by omega) hn
  unfold exponent
  omega

theorem Value.dvd {k n : ℕ} (h : Value n) (hn : 2 ^ (k + 23) ≤ n) : 2 ^ k ∣ n := by
  refine dvd_trans (pow_dvd_pow 2 ?_) h
  have : k + 23 ≤ Nat.log 2 n := Nat.le_log_of_pow_le (by decide) hn
  unfold exponent
  omega

theorem lt_pow_exponent (n : ℕ) : n < 2 ^ (exponent n + 24) := by
  refine (Nat.lt_pow_succ_log_self (by decide) n).trans_le (Nat.pow_le_pow_right (by decide) ?_)
  unfold exponent
  omega

theorem exponent_mono {m n : ℕ} (h : m ≤ n) : exponent m ≤ exponent n :=
  Nat.sub_le_sub_right (Nat.log_mono_right h) 23

/-- Below a value with a last bit of at most `2 ^ k`, the steps of `2 ^ k` are
values. -/
theorem Value.sub_pow {k n : ℕ} (h : Value n) (hn : n ≤ 2 ^ (k + 24)) : Value (n - 2 ^ k) := by
  rcases Nat.lt_or_ge n (2 ^ k) with hlt | hge
  · rw [Nat.sub_eq_zero_of_le hlt.le]
    exact dvd_zero _
  by_cases hk : exponent n ≤ k
  · refine value_of_dvd (k := exponent n) (Nat.dvd_sub h (pow_dvd_pow 2 hk)) ?_
    exact (Nat.sub_le _ _).trans_lt (lt_pow_exponent n)
  have hlog : k + 24 ≤ Nat.log 2 n := by
    unfold exponent at hk
    omega
  have hpow : 2 ^ (k + 24) ≤ n := Nat.pow_le_of_le_log (by
    rintro rfl
    rw [Nat.log_zero_right] at hlog
    omega) hlog
  rw [Nat.le_antisymm hn hpow]
  refine value_of_dvd (k := k) (Nat.dvd_sub (pow_dvd_pow 2 (by omega)) dvd_rfl) ?_
  exact Nat.sub_lt (Nat.two_pow_pos _) (Nat.two_pow_pos _)

theorem Value.double {n : ℕ} (h : Value n) : Value (2 * n) := by
  refine value_of_dvd (k := exponent n + 1) ?_ ?_
  · rw [pow_succ, mul_comm]
    exact Nat.mul_dvd_mul_left 2 h
  · have := lt_pow_exponent n
    rw [show exponent n + 1 + 24 = exponent n + 24 + 1 by ring, pow_succ]
    omega

/-! ## §3  Rounding is monotone and nearest -/

/-- What is rounded lies within half of the integer, and is even at a tie. -/
theorem halfEven_bounds {b : ℕ} (hb : 0 < b) (a : ℕ) :
    2 * a ≤ 2 * (halfEven a b * b) + b ∧ 2 * (halfEven a b * b) ≤ 2 * a + b ∧
      (2 * a = 2 * (halfEven a b * b) + b → halfEven a b % 2 = 0) ∧
      (2 * (halfEven a b * b) = 2 * a + b → halfEven a b % 2 = 0) := by
  have hdiv := Nat.div_add_mod' a b
  have hmod := Nat.mod_lt a hb
  unfold halfEven
  generalize a / b = q at *
  split
  · exact ⟨by omega, by omega, fun h => by omega, fun h => by omega⟩
  split
  · rw [Nat.add_mul, one_mul]
    exact ⟨by omega, by omega, fun h => by omega, fun h => by omega⟩
  · rcases Nat.mod_two_eq_zero_or_one q with hq | hq
    · rw [hq, add_zero]
      exact ⟨by omega, by omega, fun _ => hq, fun h => by omega⟩
    · rw [hq, Nat.add_mul, one_mul]
      exact ⟨by omega, by omega, fun h => by omega, fun h => by omega⟩

theorem halfEven_mono {b : ℕ} (hb : 0 < b) {a a' : ℕ} (h : a ≤ a') :
    halfEven a b ≤ halfEven a' b := by
  obtain ⟨-, hu, -, ht⟩ := halfEven_bounds hb a
  obtain ⟨hl', -, ht', -⟩ := halfEven_bounds hb a'
  by_contra hlt
  push Not at hlt
  -- both are ties, and both results are even
  have hstep : halfEven a' b * b + b ≤ halfEven a b * b := by
    rw [← Nat.succ_mul]
    exact Nat.mul_le_mul_right b hlt
  have htwo : halfEven a' b * b + 2 * b ≤ halfEven a b * b := by
    rw [← Nat.add_mul]
    exact Nat.mul_le_mul_right b (by omega)
  omega

theorem halfEven_mul {b : ℕ} (hb : 0 < b) (q : ℕ) : halfEven (q * b) b = q := by
  unfold halfEven
  rw [Nat.mul_mod_left, if_pos (by omega), Nat.mul_div_cancel q hb]

/-- Where the last bit does not count, there are 24 of them. -/
theorem halfEven_ge {num den : ℕ} (hden : 0 < den) (h : 0 < exponent (num / den)) :
    2 ^ 23 ≤ halfEven num (den * 2 ^ exponent (num / den)) := by
  have hpos : 0 < den * 2 ^ exponent (num / den) := Nat.mul_pos hden (Nat.two_pow_pos _)
  refine le_trans (le_of_eq (halfEven_mul hpos (2 ^ 23)).symm) (halfEven_mono hpos ?_)
  have hlog : exponent (num / den) + 23 ≤ Nat.log 2 (num / den) := by
    unfold exponent at h ⊢
    omega
  have hpow : 2 ^ (exponent (num / den) + 23) ≤ num / den := Nat.pow_le_of_le_log (by
    intro h0
    rw [h0, Nat.log_zero_right] at hlog
    omega) hlog
  calc 2 ^ 23 * (den * 2 ^ exponent (num / den))
      = 2 ^ (exponent (num / den) + 23) * den := by ring
    _ ≤ num := (Nat.le_div_iff_mul_le hden).mp hpow

theorem halfEven_le {num den : ℕ} (hden : 0 < den) :
    halfEven num (den * 2 ^ exponent (num / den)) ≤ 2 ^ 24 := by
  have hpos : 0 < den * 2 ^ exponent (num / den) := Nat.mul_pos hden (Nat.two_pow_pos _)
  refine le_trans (halfEven_mono hpos ?_) (le_of_eq (halfEven_mul hpos (2 ^ 24)))
  have hlt := (Nat.div_lt_iff_lt_mul hden).mp (lt_pow_exponent (num / den))
  calc num ≤ 2 ^ (exponent (num / den) + 24) * den := hlt.le
    _ = 2 ^ 24 * (den * 2 ^ exponent (num / den)) := by ring

theorem round_value {den : ℕ} (hden : 0 < den) (num : ℕ) : Value (round num den) := by
  unfold round
  rcases Nat.lt_or_ge (halfEven num (den * 2 ^ exponent (num / den))) (2 ^ 24) with hlt | hge
  · refine value_of_dvd (Dvd.intro_left _ rfl) ?_
    rw [add_comm, pow_add]
    exact Nat.mul_lt_mul_of_pos_right hlt (Nat.two_pow_pos _)
  · rw [Nat.le_antisymm (halfEven_le hden) hge]
    refine value_of_dvd (k := 24 + exponent (num / den)) ?_ ?_
    · rw [pow_add]
    · rw [← pow_add]
      exact Nat.pow_lt_pow_right (by decide) (by omega)

theorem round_mono {den : ℕ} (hden : 0 < den) {m n : ℕ} (h : m ≤ n) :
    round m den ≤ round n den := by
  unfold round
  have hexp : exponent (m / den) ≤ exponent (n / den) := exponent_mono (Nat.div_le_div_right h)
  rcases Nat.eq_or_lt_of_le hexp with heq | hlt
  · rw [heq]
    exact Nat.mul_le_mul_right _ (halfEven_mono (Nat.mul_pos hden (Nat.two_pow_pos _)) h)
  · calc _ ≤ 2 ^ 24 * 2 ^ exponent (m / den) := Nat.mul_le_mul_right _ (halfEven_le hden)
      _ = 2 ^ (24 + exponent (m / den)) := (pow_add 2 24 _).symm
      _ ≤ 2 ^ (23 + exponent (n / den)) := Nat.pow_le_pow_right (by decide) (by omega)
      _ = 2 ^ 23 * 2 ^ exponent (n / den) := pow_add 2 23 _
      _ ≤ _ := Nat.mul_le_mul_right _ (halfEven_ge hden (by omega))

theorem Value.round {n den : ℕ} (hden : 0 < den) (h : Value n) : round (n * den) den = n := by
  obtain ⟨q, hq⟩ := h
  unfold Single.round
  rw [Nat.mul_div_cancel n hden]
  have hn : n * den = q * (den * 2 ^ exponent n) := by
    conv_lhs => rw [hq]
    ring
  rw [hn, halfEven_mul (Nat.mul_pos hden (Nat.two_pow_pos _))]
  conv_rhs => rw [hq]
  exact mul_comm _ _

theorem Value.round_one {n : ℕ} (h : Value n) : Single.round n 1 = n := by
  have := Value.round Nat.one_pos h
  rwa [mul_one] at this

/-! ## §4  Neighbours and midpoints -/

theorem Value.gap {k a b : ℕ} (ha : Value a) (hb : Value b) (hab : a < b) (h : 2 ^ (k + 23) < b) :
    a + 2 ^ k ≤ b := by
  have hdb : 2 ^ k ∣ b := hb.dvd h.le
  have hpow : 2 ^ k ∣ 2 ^ (k + 23) := pow_dvd_pow 2 (by omega)
  -- a multiple of the step that is below `b`
  obtain ⟨c, hac, hcb, hdc⟩ : ∃ c, a ≤ c ∧ c < b ∧ 2 ^ k ∣ c := by
    rcases Nat.lt_or_ge a (2 ^ (k + 23)) with hlt | hge
    · exact ⟨2 ^ (k + 23), hlt.le, h, hpow⟩
    · exact ⟨a, le_rfl, hab, ha.dvd hge⟩
  have := Nat.le_of_dvd (Nat.sub_pos_of_lt hcb) (Nat.dvd_sub hdb hdc)
  omega

theorem round_one_eq (n : ℕ) : round n 1 = halfEven n (2 ^ exponent n) * 2 ^ exponent n := by
  unfold round
  rw [Nat.div_one, one_mul]

/-- Rounding up is to a value that is nearer than the ones below. -/
theorem round_lt {g n t : ℕ} (hg : Value g) (hgn : g ≤ n) (ht : 2 * n < g + t) : round n 1 < t := by
  rw [round_one_eq]
  have hu : 0 < 2 ^ exponent n := Nat.two_pow_pos _
  have hdiv := Nat.div_add_mod' n (2 ^ exponent n)
  have hfloor : g ≤ n / 2 ^ exponent n * 2 ^ exponent n := by
    rcases Nat.lt_or_ge g (2 ^ (exponent n + 23)) with hlt | hge
    · by_cases h0 : exponent n = 0
      · rw [h0, pow_zero, Nat.div_one, mul_one]
        exact hgn
      have hlog : exponent n + 23 ≤ Nat.log 2 n := by
        unfold exponent at h0 ⊢
        omega
      have hpow : 2 ^ (exponent n + 23) ≤ n := Nat.pow_le_of_le_log (by
        intro hn
        rw [hn, Nat.log_zero_right] at hlog
        omega) hlog
      refine hlt.le.trans ?_
      rw [add_comm, pow_add]
      refine Nat.mul_le_mul_right _ ((Nat.le_div_iff_mul_le hu).mpr ?_)
      rwa [← pow_add, add_comm]
    · have hcancel := Nat.div_mul_cancel (hg.dvd hge)
      have hq := (Nat.le_div_iff_mul_le hu).mpr (hcancel.le.trans hgn)
      exact hcancel.symm.le.trans (Nat.mul_le_mul_right _ hq)
  unfold halfEven
  split
  · omega
  split
  · rw [Nat.add_mul, one_mul]
    omega
  · rcases Nat.mod_two_eq_zero_or_one (n / 2 ^ exponent n) with hq | hq
    · rw [hq, add_zero]
      omega
    · rw [hq, Nat.add_mul, one_mul]
      omega

/-- Rounding down is to a value that is nearer than the ones above. -/
theorem lt_round {g n t : ℕ} (hg : Value g) (hgn : n ≤ g) (ht : t + g < 2 * n) : t < round n 1 := by
  rw [round_one_eq]
  have hdiv := Nat.div_add_mod' n (2 ^ exponent n)
  have hd : 2 ^ exponent n ∣ g := (pow_dvd_pow 2 (exponent_mono hgn)).trans hg
  have hceil : n % 2 ^ exponent n = 0 ∨
      n / 2 ^ exponent n * 2 ^ exponent n + 2 ^ exponent n ≤ g := by
    rcases Nat.eq_zero_or_pos (n % 2 ^ exponent n) with h0 | hpos
    · exact Or.inl h0
    · have := Nat.le_of_dvd (by omega) (Nat.dvd_sub hd (Dvd.intro_left (n / 2 ^ exponent n) rfl))
      omega
  unfold halfEven
  split
  · omega
  split
  · rw [Nat.add_mul, one_mul]
    omega
  · rcases Nat.mod_two_eq_zero_or_one (n / 2 ^ exponent n) with hq | hq
    · rw [hq, add_zero]
      omega
    · rw [hq, Nat.add_mul, one_mul]
      omega

theorem Value.exists_half {s : ℕ} (h : Value s) (hs : 2 ^ 24 ≤ s) :
    ∃ m, s = 2 * m ∧ half s = m := by
  have hexp : 1 ≤ exponent s := by
    have : 24 ≤ Nat.log 2 s := Nat.le_log_of_pow_le (by decide) hs
    unfold exponent
    omega
  obtain ⟨k, hk⟩ : ∃ k, exponent s = k + 1 := Nat.exists_eq_succ_of_ne_zero (by omega)
  have hd : 2 ^ (k + 1) ∣ s := hk ▸ h
  obtain ⟨c, hc⟩ := hd
  have hlt := lt_pow_exponent s
  rw [hk] at hlt
  have hm : s = 2 * (2 ^ k * c) := by
    rw [hc, pow_succ]
    ring
  have hvalue : Value (2 ^ k * c) := by
    refine value_of_dvd (Dvd.intro c rfl) ?_
    rw [show k + 1 + 24 = k + 24 + 1 by ring, pow_succ] at hlt
    omega
  refine ⟨2 ^ k * c, hm, ?_⟩
  rw [hm, mul_comm]
  exact hvalue.round Nat.two_pos

/-- **The middle of two values** that are not neighbours lies strictly between
them. -/
theorem mid_between {low high f : ℕ} (hhigh : Value high) (hf : Value f)
    (hlf : low < f) (hfh : f < high) (hbig : 2 ^ 24 ≤ high) :
    low < half (add low high) ∧ half (add low high) < high := by
  have hs : 2 ^ 24 ≤ add low high := by
    refine hbig.trans ?_
    calc high = round high 1 := hhigh.round_one.symm
      _ ≤ _ := round_mono Nat.one_pos (Nat.le_add_left high low)
  obtain ⟨m, hm, hhalf⟩ := (round_value Nat.one_pos (low + high)).exists_half hs
  unfold add at hs ⊢
  suffices 2 * low < round (low + high) 1 ∧ round (low + high) 1 < 2 * high by omega
  have htwo : round (2 * f) 1 = 2 * f := hf.double.round_one
  rcases Nat.le_total (2 * f) (low + high) with h | h
  · have := round_mono Nat.one_pos h
    exact ⟨by omega, round_lt hf.double h (by omega)⟩
  · have := round_mono Nat.one_pos h
    exact ⟨lt_round hf.double h (by omega), by omega⟩

/-- The middle does not lie above. -/
theorem mid_le {low high : ℕ} (h : low ≤ high) (hhigh : Value high) (hbig : 2 ^ 24 ≤ high) :
    half (add low high) ≤ high := by
  have hs : 2 ^ 24 ≤ add low high := by
    refine hbig.trans ?_
    calc high = round high 1 := hhigh.round_one.symm
      _ ≤ _ := round_mono Nat.one_pos (Nat.le_add_left high low)
  obtain ⟨m, hm, hhalf⟩ := (round_value Nat.one_pos (low + high)).exists_half hs
  unfold add at hs ⊢
  have := round_mono Nat.one_pos (show low + high ≤ 2 * high by omega)
  rw [hhigh.double.round_one] at this
  omega

end Ollama.Lib.Single
