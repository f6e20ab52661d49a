import Ollama.Lib.Double
import Mathlib.Data.List.TakeWhile

/-!
# Numbers in texts

Decimal integers of 64 bits and floating-point numbers, read from text as Go's `strconv` reads
them. A floating-point number is its value; the sign of a zero is left out.
-/

namespace Ollama.Lib.Strconv

open List

/-! ## §1  Integers -/

/-- The sign of a number (`true` for a minus), and what follows. -/
def sign : List Char → Bool × List Char
  | '-' :: s => (true, s)
  | '+' :: s => (false, s)
  | s => (false, s)

/-- `ParseInt(s, 10, 64)`, without the kind of its error. -/
def parseInt (s : List Char) : Option Int64 :=
  let (negative, digits) := sign s
  if digits = [] ∨ ¬digits.all Char.isDigit then none
  else
    let n := Nat.ofDigitChars 10 digits 0
    if negative then if n ≤ 2 ^ 63 then some (Int64.ofInt (-n)) else none
    else if n < 2 ^ 63 then some (Int64.ofInt n) else none

/-! ## §2  Floating-point numbers -/

inductive Float64
  | finite (x : ℚ)
  | infinite (negative : Bool)
  | nan
  deriving DecidableEq

def ulp (q : ℚ) : ℚ := 2 ^ max (Int.log 2 |q| - 52) (-1074)

/-- The nearest number of the format, ties to even; none above its range. -/
def nearest (q : ℚ) : Option ℚ :=
  let x := Double.nearest (q / ulp q) * ulp q
  if |x| < 2 ^ 1024 then some x else none

/-- A digit to the base 10 or 16. -/
def isDigit (hex : Bool) (c : Char) : Bool :=
  c.isDigit || hex && ('a' ≤ c.toLower && c.toLower ≤ 'f')

def digit (c : Char) : ℕ :=
  if c.isDigit then c.toNat - '0'.toNat else c.toLower.toNat - 'a'.toNat + 10

/-- `saw` in `underscoreOK`: the last character. -/
inductive Saw
  | start
  | digit
  | underscore
  | other
  deriving DecidableEq

def underscoresFrom (hex : Bool) : Saw → List Char → Bool
  | saw, [] => saw ≠ .underscore
  | saw, c :: s =>
      if isDigit hex c then underscoresFrom hex .digit s
      else if c = '_' then saw = .digit && underscoresFrom hex .underscore s
      else saw ≠ .underscore && underscoresFrom hex .other s

/-- Underscores stand between digits only; a base prefix counts as one. -/
def underscoreOK (s : List Char) : Bool :=
  match (sign s).2 with
  | '0' :: c :: t =>
      if c.toLower = 'b' ∨ c.toLower = 'o' ∨ c.toLower = 'x' then
        underscoresFrom (c.toLower = 'x') .digit t
      else underscoresFrom false .start ('0' :: c :: t)
  | t => underscoresFrom false .start t

/-- The signed digits after the mark of an exponent. They stop counting at five digits. -/
def readExponent (s : List Char) : Option ℤ :=
  let (negative, digits) := sign s
  match digits with
  | [] => none
  | c :: t =>
      if c.isDigit ∧ t.all fun c => c.isDigit ∨ c = '_' then
        let e := (digits.filter Char.isDigit).foldl
          (fun e c => if e < 10000 then e * 10 + digit c else e) 0
        some (if negative then -e else e)
      else none

/-- The mantissa and the exponent of a number without its sign. -/
def readMantissa (hex : Bool) (s : List Char) : Option ℚ :=
  let mantissa := s.takeWhile fun c => c = '_' || c = '.' || isDigit hex c
  let digits := mantissa.filter (isDigit hex)
  let fraction := ((mantissa.dropWhile (· ≠ '.')).filter (isDigit hex)).length
  if 1 < mantissa.count '.' ∨ digits = [] then none
  else
    let exponent :=
      match s.dropWhile fun c => c = '_' || c = '.' || isDigit hex c with
      | [] => if hex then none else some 0
      | c :: t => if c.toLower = (if hex then 'p' else 'e') then readExponent t else none
    exponent.map fun (e : ℤ) =>
      let n := digits.foldl (fun n c => (if hex then 16 else 10) * n + digit c) 0
      if hex then n * 2 ^ (e - 4 * fraction) else n * 10 ^ (e - fraction)

/-- A number without its sign, to the base 16 after `0x`. -/
def readMagnitude : List Char → Option ℚ
  | '0' :: c :: d :: s =>
      if c.toLower = 'x' then readMantissa true (d :: s) else readMantissa false ('0' :: c :: d :: s)
  | s => readMantissa false s

def readFloat (s : List Char) : Option ℚ :=
  let (negative, t) := sign s
  if underscoreOK s then (readMagnitude t).map fun q => if negative then -q else q else none

def special (s : List Char) : Option Float64 :=
  let (negative, t) := sign s
  let word := t.map Char.toLower
  if word = "inf".toList ∨ word = "infinity".toList then some (.infinite negative)
  else if s.map Char.toLower = "nan".toList then some .nan
  else none

/-- `ParseFloat(s, 64)`, without the kind of its error. -/
def parseFloat (s : List Char) : Option Float64 :=
  match special s with
  | some x => some x
  | none => ((readFloat s).bind nearest).map .finite

/-! ## §3  Decimal texts -/

def decimal : ℤ → List Char
  | .ofNat n => Nat.toDigits 10 n
  | .negSucc n => '-' :: Nat.toDigits 10 (n + 1)

/-- A natural number without a leading zero. -/
theorem toDigits_zero (n : ℕ) {s : List Char} (h : Nat.toDigits 10 n = '0' :: s) : s = [] := by
  induction n using Nat.strong_induction_on generalizing s with
  | h n ih =>
    by_cases hn : n < 10
    · rw [Nat.toDigits_of_lt_base hn] at h
      exact (List.cons.inj h).2.symm
    rw [Nat.toDigits_of_base_le (by decide) (Nat.not_lt.mp hn)] at h
    cases hpre : Nat.toDigits 10 (n / 10) with
    | nil => exact absurd hpre Nat.toDigits_ne_nil
    | cons c t =>
      rw [hpre, cons_append] at h
      obtain ⟨rfl, hs⟩ := List.cons.inj h
      have hnil := ih (n / 10) (Nat.div_lt_self (by omega) (by decide)) hpre
      -- the leading digit of a number of ten or more is not 0
      rw [hnil] at hpre
      have hvalue := congrArg (Nat.ofDigitChars 10 · 0) hpre
      rw [Nat.ofDigitChars_ten_toDigits] at hvalue
      have hzero : Nat.ofDigitChars 10 ['0'] 0 = 0 := rfl
      omega

structure Digits (s : List Char) : Prop where
  nonempty : s ≠ []
  digits : ∀ c ∈ s, c.isDigit = true
  zero : ∀ t, s = '0' :: t → t = []

theorem digits_toDigits (n : ℕ) : Digits (Nat.toDigits 10 n) :=
  ⟨Nat.toDigits_ne_nil, fun _ hc => Nat.isDigit_of_mem_toDigits (by decide) (by decide) hc,
    fun _ h => toDigits_zero n h⟩

theorem isDigit_toLower {c : Char} (h : c.isDigit = true) : c.toLower = c := by
  have hle : c.val ≤ '9'.val := by
    rw [Char.isDigit, Bool.and_eq_true, decide_eq_true_eq, decide_eq_true_eq] at h
    exact h.2
  unfold Char.toLower
  rw [dif_neg fun hA => absurd (UInt32.le_trans hA.1 hle) (by decide)]

theorem underscoresFrom_digits {s : List Char} (h : ∀ c ∈ s, c.isDigit = true) {saw : Saw}
    (hsaw : saw ≠ .underscore) : underscoresFrom false saw s = true := by
  induction s generalizing saw with
  | nil => exact decide_eq_true hsaw
  | cons c s ih =>
    have hc : isDigit false c = true := by rw [isDigit, h c mem_cons_self, Bool.true_or]
    rw [underscoresFrom, if_pos hc]
    exact ih (fun c hc => h c (mem_cons_of_mem _ hc)) nofun

theorem foldl_digits {s : List Char} (h : ∀ c ∈ s, c.isDigit = true) (k : ℕ) :
    s.foldl (fun n c => 10 * n + digit c) k = Nat.ofDigitChars 10 s k := by
  induction s generalizing k with
  | nil => exact Nat.ofDigitChars_nil.symm
  | cons c s ih =>
    rw [foldl_cons, Nat.ofDigitChars_cons, ih fun c hc => h c (mem_cons_of_mem _ hc),
      digit, if_pos (h c mem_cons_self)]

section Digits

variable {s : List Char}

section

variable (h : Digits s)
include h

theorem Digits.ne {c : Char} (hc : c.isDigit = false) : ∀ t, s ≠ c :: t := by
  rintro t rfl
  rw [h.digits c mem_cons_self] at hc
  cases hc

theorem Digits.sign : sign s = (false, s) := by
  unfold Strconv.sign
  split
  · exact absurd rfl (h.ne (by decide) _)
  · exact absurd rfl (h.ne (by decide) _)
  · rfl

theorem Digits.isDigit : ∀ c ∈ s, isDigit false c = true := fun c hc => by
  rw [Strconv.isDigit, h.digits c hc, Bool.true_or]

theorem Digits.parseInt (hn : Nat.ofDigitChars 10 s 0 < 2 ^ 63) :
    parseInt s = some (Int64.ofInt (Nat.ofDigitChars 10 s 0)) := by
  have hall : s.all Char.isDigit = true := all_eq_true.mpr h.digits
  unfold Strconv.parseInt
  rw [h.sign]
  dsimp only
  rw [if_neg fun hbad => hbad.elim h.nonempty (absurd hall), if_neg Bool.false_ne_true, if_pos hn]

theorem Digits.parseInt_neg (hn : Nat.ofDigitChars 10 s 0 ≤ 2 ^ 63) :
    Strconv.parseInt ('-' :: s) = some (Int64.ofInt (-(Nat.ofDigitChars 10 s 0 : ℕ))) := by
  have hall : s.all Char.isDigit = true := all_eq_true.mpr h.digits
  unfold Strconv.parseInt
  rw [Strconv.sign]
  dsimp only
  rw [if_neg fun hbad => hbad.elim h.nonempty (absurd hall), if_pos rfl, if_pos hn]

/-- A mantissa of digits alone is the number. -/
theorem Digits.readMantissa :
    readMantissa false s = some ((Nat.ofDigitChars 10 s 0 : ℕ) : ℚ) := by
  have htake : s.takeWhile (fun c => c = '_' || c = '.' || Strconv.isDigit false c) = s :=
    takeWhile_eq_self_iff.mpr fun c hc => by rw [h.isDigit c hc, Bool.or_true]
  have hdrop : s.dropWhile (fun c => c = '_' || c = '.' || Strconv.isDigit false c) = [] :=
    dropWhile_eq_nil_iff.mpr fun c hc => by rw [h.isDigit c hc, Bool.or_true]
  have hpoint : '.' ∉ s := fun hmem => absurd (h.digits '.' hmem) (by decide)
  have hcount : s.count '.' = 0 := count_eq_zero.mpr hpoint
  have hfraction : s.dropWhile (· ≠ '.') = [] := dropWhile_eq_nil_iff.mpr fun c hc =>
    decide_eq_true fun h => hpoint (h ▸ hc)
  have hfilter : s.filter (Strconv.isDigit false) = s := filter_eq_self.mpr h.isDigit
  have hvalue := foldl_digits h.digits 0
  have hgood : ¬(1 < 0 ∨ s = []) := fun hbad => hbad.elim (absurd · (by decide)) h.nonempty
  unfold Strconv.readMantissa
  dsimp only
  rw [htake, hdrop, hfilter, hfraction, hcount, if_neg hgood]
  show some ((s.foldl (fun n c => 10 * n + digit c) 0 : ℕ) * (10 : ℚ) ^ ((0 : ℤ) - (0 : ℕ))) = _
  rw [hvalue, Nat.cast_zero, sub_zero, zpow_zero, mul_one]

theorem Digits.noPrefix {c : Char} : ∀ t, s ≠ '0' :: c :: t := fun t hs =>
  cons_ne_nil c t (h.zero _ hs)

theorem Digits.underscoreOK (negative : Bool) :
    underscoreOK (if negative then '-' :: s else s) = true := by
  have hsign : (Strconv.sign (if negative then '-' :: s else s)).2 = s := by
    cases negative with
    | false => exact congrArg Prod.snd h.sign
    | true => rfl
  unfold Strconv.underscoreOK
  rw [hsign]
  split
  · exact absurd rfl (h.noPrefix _)
  · exact underscoresFrom_digits h.digits nofun

theorem Digits.readFloat (negative : Bool) :
    readFloat (if negative then '-' :: s else s) =
      some (if negative then -((Nat.ofDigitChars 10 s 0 : ℕ) : ℚ)
        else ((Nat.ofDigitChars 10 s 0 : ℕ) : ℚ)) := by
  have hsign : Strconv.sign (if negative then '-' :: s else s) = (negative, s) := by
    cases negative with
    | false => exact h.sign
    | true => rfl
  unfold Strconv.readFloat
  rw [hsign, h.underscoreOK negative]
  dsimp only
  rw [if_pos rfl]
  have hmagnitude : readMagnitude s = Strconv.readMantissa false s := by
    unfold readMagnitude
    split
    · exact absurd rfl (h.noPrefix _)
    · rfl
  rw [hmagnitude, h.readMantissa, Option.map_some]

theorem Digits.special (negative : Bool) :
    special (if negative then '-' :: s else s) = none := by
  have hsign : Strconv.sign (if negative then '-' :: s else s) = (negative, s) := by
    cases negative with
    | false => exact h.sign
    | true => rfl
  have hlower : s.map Char.toLower = s :=
    (map_congr_left fun c hc => isDigit_toLower (h.digits c hc)).trans (map_id s)
  have hnan : (if negative then '-' :: s else s).map Char.toLower ≠ "nan".toList := by
    cases negative with
    | false =>
      rw [if_neg Bool.false_ne_true, hlower]
      exact h.ne (by decide) _
    | true => exact fun heq => absurd (List.cons.inj heq).1 (by decide)
  unfold Strconv.special
  rw [hsign]
  dsimp only
  rw [hlower, if_neg fun hword => hword.elim (h.ne (by decide) _) (h.ne (by decide) _), if_neg hnan]

end

end Digits

theorem ulp_intCast (n : ℤ) : ulp n = Double.ulp n := by
  have hlog : 0 ≤ Int.log 2 |(n : ℚ)| := by
    rcases eq_or_ne n 0 with rfl | hne
    · rw [Int.cast_zero, abs_zero, Int.log_zero_right]
    · have hone : (1 : ℚ) ≤ |(n : ℚ)| := by exact_mod_cast Int.one_le_abs hne
      rw [Int.log_of_one_le_right 2 hone]
      exact Int.natCast_nonneg _
  rw [ulp, Double.ulp, max_eq_left (by omega)]

theorem nearest_intCast {n : ℤ} (h : |n| ≤ 2 ^ 63) : nearest n = some (Double.ofInt n) := by
  have hbound : |Double.ofInt n| < 2 ^ 1024 := by
    rcases eq_or_ne n 0 with rfl | hne
    · rw [Double.ofInt, Int.cast_zero, Double.round_zero, abs_zero]
      exact pow_pos two_pos 1024
    have habs : |(n : ℚ)| ≤ 2 ^ 63 := by exact_mod_cast h
    have hpos : (0 : ℚ) < |(n : ℚ)| := abs_pos.mpr (Int.cast_ne_zero.mpr hne)
    have hulp : Double.ulp n ≤ |(n : ℚ)| := calc
      Double.ulp n ≤ 2 ^ Int.log 2 |(n : ℚ)| := zpow_le_zpow_right₀ one_le_two (by omega)
      _ ≤ |(n : ℚ)| := Int.zpow_log_le_self (by decide) hpos
    calc |Double.ofInt n| ≤ |(n : ℚ)| + Double.ulp n := Double.abs_round_le n
      _ ≤ 2 ^ 63 + 2 ^ 63 := add_le_add habs (hulp.trans habs)
      _ = 2 ^ 64 := by norm_num
      _ < 2 ^ 1024 := pow_lt_pow_right₀ one_lt_two (by decide)
  unfold nearest
  rw [ulp_intCast]
  exact if_pos hbound

theorem parseInt_decimal (n : Int64) : parseInt (decimal n.toInt) = some n := by
  have hlow := n.le_toInt
  have hhigh := n.toInt_lt
  have hvalue : ∀ k : ℕ, Nat.ofDigitChars 10 (Nat.toDigits 10 k) 0 = k := fun k =>
    Nat.ofDigitChars_ten_toDigits
  cases hn : n.toInt with
  | ofNat k =>
    have hk : n.toInt = k := hn
    have hlt : Nat.ofDigitChars 10 (Nat.toDigits 10 k) 0 < 2 ^ 63 := by
      rw [hvalue]
      omega
    rw [decimal, (digits_toDigits k).parseInt hlt, hvalue, ← hk, Int64.ofInt_toInt]
  | negSucc k =>
    have hk : n.toInt = -(k + 1 : ℕ) := hn
    have hle : Nat.ofDigitChars 10 (Nat.toDigits 10 (k + 1)) 0 ≤ 2 ^ 63 := by
      rw [hvalue]
      omega
    rw [decimal, (digits_toDigits (k + 1)).parseInt_neg hle, hvalue, ← hk, Int64.ofInt_toInt]

theorem parseFloat_decimal {n : ℤ} (h : |n| ≤ 2 ^ 63) :
    parseFloat (decimal n) = some (.finite (Double.ofInt n)) := by
  have hvalue : ∀ k : ℕ, Nat.ofDigitChars 10 (Nat.toDigits 10 k) 0 = k := fun k =>
    Nat.ofDigitChars_ten_toDigits
  have hread : special (decimal n) = none ∧ readFloat (decimal n) = some (n : ℚ) := by
    cases n with
    | ofNat k =>
      have hread := (digits_toDigits k).readFloat false
      rw [if_neg Bool.false_ne_true, if_neg Bool.false_ne_true, hvalue] at hread
      exact ⟨(digits_toDigits k).special false, hread⟩
    | negSucc k =>
      have hread := (digits_toDigits (k + 1)).readFloat true
      rw [if_pos rfl, if_pos rfl, hvalue] at hread
      refine ⟨(digits_toDigits (k + 1)).special true, hread.trans (congrArg some ?_)⟩
      rw [Int.cast_negSucc]
  unfold parseFloat
  rw [hread.1, hread.2]
  rw [Option.bind_some, nearest_intCast h, Option.map_some]

/-- A text in brackets is no number. -/
theorem parse_bracket {c : Char} (hc : c = '[' ∨ c = '{') (s : List Char) :
    parseInt (c :: s) = none ∧ parseFloat (c :: s) = none := by
  have hsign : sign (c :: s) = (false, c :: s) := by rcases hc with rfl | rfl <;> rfl
  have hdigit : c.isDigit = false := by rcases hc with rfl | rfl <;> rfl
  constructor
  · have hall : ¬(c :: s).all Char.isDigit = true := by
      rw [List.all_cons, hdigit, Bool.false_and]
      exact Bool.false_ne_true
    unfold parseInt
    rw [hsign]
    exact if_pos (.inr hall)
  · have hword : ∀ (x : Char) (word : List Char), c.toLower ≠ x →
        (c :: s).map Char.toLower ≠ x :: word := fun x word hne h => hne (List.cons.inj h).1
    have hspecial : special (c :: s) = none := by
      have hi : c.toLower ≠ 'i' := by rcases hc with rfl | rfl <;> decide
      have hn : c.toLower ≠ 'n' := by rcases hc with rfl | rfl <;> decide
      unfold special
      rw [hsign]
      dsimp only
      have hnan : (c :: s).map Char.toLower ≠ "nan".toList := hword _ _ hn
      rw [if_neg fun h => h.elim (hword _ _ hi) (hword _ _ hi), if_neg hnan]
    have hmantissa : readMantissa false (c :: s) = none := by
      have htake : (c :: s).takeWhile (fun c => c = '_' || c = '.' || isDigit false c) = [] :=
        takeWhile_cons_of_neg (by rcases hc with rfl | rfl <;> decide)
      unfold readMantissa
      rw [htake]
      rfl
    have hmagnitude : readMagnitude (c :: s) = none := by
      unfold readMagnitude
      split
      · next heq =>
        rcases hc with rfl | rfl <;> exact absurd (List.cons.inj heq).1 (by decide)
      · exact hmantissa
    have hread : readFloat (c :: s) = none := by
      unfold readFloat
      rw [hsign]
      dsimp only
      rw [hmagnitude, Option.map_none, ite_self]
    unfold parseFloat
    rw [hspecial, hread]
    rfl

end Ollama.Lib.Strconv
