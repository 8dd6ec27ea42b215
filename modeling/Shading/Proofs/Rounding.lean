/-
  Rounding to binary formats, measured in the rationals.

  `Format.round` is off by at most half a unit of the last place
  (`round_near`), and it gives back the number of the format that a quotient
  is close to (`round_eq`).  Errors of several roundings one after the other
  are counted by `Near`.
-/
import Mathlib.Algebra.Order.Field.Power
import Mathlib.Data.Rat.Cast.Order
import Mathlib.Tactic.FieldSimp
import Mathlib.Tactic.Linarith
import Mathlib.Tactic.NormNum
import Mathlib.Tactic.Positivity
import Mathlib.Tactic.Ring
import Shading.Number.Shortest

namespace Shading.Number

/-! ## Powers with whole exponents -/

theorem cast_twoTo (n : Nat) : (twoTo n : ℚ) = 2 ^ n := by
  change ((2 ^ n : ℕ) : ℚ) = 2 ^ n
  exact Nat.cast_pow 2 n

theorem cast_tenTo (n : Nat) : (tenTo n : ℚ) = 10 ^ n := by
  change ((10 ^ n : ℕ) : ℚ) = 10 ^ n
  exact Nat.cast_pow 10 n

theorem twoTo_pos (n : Nat) : 0 < twoTo n :=
  Nat.pow_pos (by decide)

theorem tenTo_pos (n : Nat) : 0 < tenTo n :=
  Nat.pow_pos (by decide)

/-- A whole power is a quotient of two natural ones. -/
theorem zpow_eq_div {b : ℚ} (hb : b ≠ 0) (e : Int) : b ^ e = b ^ e.toNat / b ^ (-e).toNat := by
  rw [← zpow_natCast, ← zpow_natCast, ← zpow_sub₀ hb]
  congr 1
  omega

theorem two_zpow_add (a b : Int) : (2 : ℚ) ^ (a + b) = 2 ^ a * 2 ^ b :=
  zpow_add₀ (by norm_num) a b

theorem two_zpow_pos (e : Int) : (0 : ℚ) < 2 ^ e :=
  zpow_pos (by norm_num) e

theorem two_zpow_le {a b : Int} (h : a ≤ b) : (2 : ℚ) ^ a ≤ 2 ^ b :=
  zpow_le_zpow_right₀ (by norm_num) h

/-! ## Values -/

/-- The rational number that a scaled number is. -/
def Scaled.value (x : Scaled) : ℚ := x.mantissa * 2 ^ x.exponent

theorem Scaled.quotient_pos (x : Scaled) : 0 < x.quotient.2 :=
  twoTo_pos _

theorem Scaled.value_eq_quotient (x : Scaled) :
    x.value = (x.quotient.1 : ℚ) / (x.quotient.2 : ℚ) := by
  simp only [Scaled.value, Scaled.quotient, Nat.cast_mul, cast_twoTo]
  rw [zpow_eq_div (by norm_num) x.exponent, mul_div_assoc]

theorem inUnits_pos {den : Nat} (h : 0 < den) (num : Nat) (e : Int) :
    0 < (inUnits num den e).2 :=
  Nat.mul_pos h (twoTo_pos _)

theorem inUnits_div (num den : Nat) (e : Int) :
    ((inUnits num den e).1 : ℚ) / ((inUnits num den e).2 : ℚ) = num / den / 2 ^ e := by
  simp only [inUnits, Nat.cast_mul, cast_twoTo]
  rw [zpow_eq_div (by norm_num) e]
  field_simp

/-! ## Rounding to a whole number -/

theorem roundDiv_near (num : Nat) {den : Nat} (h : 0 < den) :
    |(roundDiv num den : ℚ) - num / den| ≤ 1 / 2 := by
  -- the two sides of the bound, with the quotient multiplied out
  have hsides : 2 * (roundDiv num den * den) ≤ 2 * num + den ∧
      2 * num ≤ 2 * (roundDiv num den * den) + den := by
    have hr : num % den < den := Nat.mod_lt num h
    have hq : den * (num / den) + num % den = num := Nat.div_add_mod num den
    have hodd : num / den % 2 ≤ 1 := by omega
    simp only [roundDiv]
    generalize num / den % 2 = odd at *
    generalize num / den = q at *
    generalize num % den = r at *
    split
    · constructor <;> nlinarith
    · split <;> constructor <;> nlinarith
  obtain ⟨hlow, hhigh⟩ := hsides
  have hden : (0 : ℚ) < den := by exact_mod_cast h
  have hlow' : 2 * ((roundDiv num den : ℚ) * den) ≤ 2 * num + den := by exact_mod_cast hlow
  have hhigh' : 2 * (num : ℚ) ≤ 2 * ((roundDiv num den : ℚ) * den) + den := by
    exact_mod_cast hhigh
  have hnum : (num : ℚ) = num / den * den := by field_simp
  rw [abs_le]
  constructor
  · by_contra hc
    nlinarith
  · by_contra hc
    nlinarith

theorem roundDiv_eq {num den m : Nat} (h : 0 < den)
    (hm : |(num : ℚ) / den - m| < 1 / 2) : roundDiv num den = m := by
  have hnear := roundDiv_near num h
  rw [abs_le] at hnear
  rw [abs_lt] at hm
  have hlt : (roundDiv num den : ℚ) < m + 1 := by linarith
  have hgt : (m : ℚ) < roundDiv num den + 1 := by linarith
  have hlt' : roundDiv num den < m + 1 := by exact_mod_cast hlt
  have hgt' : m < roundDiv num den + 1 := by exact_mod_cast hgt
  omega

/-! ## The exponent of a quotient -/

theorem log2_bounds {n : Nat} (h : 0 < n) :
    (2 : ℚ) ^ (n.log2 : Int) ≤ n ∧ (n : ℚ) < 2 ^ ((n.log2 : Int) + 1) := by
  have hne : n ≠ 0 := by omega
  refine ⟨?_, ?_⟩
  · rw [zpow_natCast]
    exact_mod_cast Nat.log2_self_le hne
  · have hlt : n < 2 ^ (n.log2 + 1) := Nat.lt_log2_self
    have : ((n.log2 : Int) + 1) = ((n.log2 + 1 : Nat) : Int) := by simp
    rw [this, zpow_natCast]
    exact_mod_cast hlt

/-- A quotient is within a factor of two of the power that the sizes of its
    parts give. -/
theorem quotient_bounds {num den : Nat} (hn : 0 < num) (hd : 0 < den) :
    (2 : ℚ) ^ ((num.log2 : Int) - den.log2 - 1) ≤ num / den ∧
      (num : ℚ) / den < 2 ^ ((num.log2 : Int) - den.log2 + 1) := by
  obtain ⟨hn₁, hn₂⟩ := log2_bounds hn
  obtain ⟨hd₁, hd₂⟩ := log2_bounds hd
  have hden : (0 : ℚ) < den := by exact_mod_cast hd
  refine ⟨?_, ?_⟩
  · rw [le_div_iff₀ hden]
    calc (2 : ℚ) ^ ((num.log2 : Int) - den.log2 - 1) * den
        ≤ 2 ^ ((num.log2 : Int) - den.log2 - 1) * 2 ^ ((den.log2 : Int) + 1) :=
          mul_le_mul_of_nonneg_left hd₂.le (two_zpow_pos _).le
      _ = 2 ^ (num.log2 : Int) := by rw [← two_zpow_add]; congr 1; ring
      _ ≤ num := hn₁
  · rw [div_lt_iff₀ hden]
    calc (num : ℚ) < 2 ^ ((num.log2 : Int) + 1) := hn₂
      _ = 2 ^ ((num.log2 : Int) - den.log2 + 1) * 2 ^ (den.log2 : Int) := by
          rw [← two_zpow_add]; congr 1; ring
      _ ≤ 2 ^ ((num.log2 : Int) - den.log2 + 1) * den :=
          mul_le_mul_of_nonneg_left hd₁ (two_zpow_pos _).le

namespace Format

/-- What the exponent of a quotient `q` is: with `e` the quotient has at most
    `precision` bits before the point, and with a smaller one it would have
    more, unless there is none. -/
structure Places (f : Format) (q : ℚ) (e : Int) : Prop where
  least : f.least ≤ e
  high : q < 2 ^ ((f.precision : Int) + e)
  low : e = f.least ∨ 2 ^ ((f.precision : Int) - 1 + e) ≤ q

variable {f : Format} {q : ℚ} {num den : Nat}

theorem exponentFor_places (hn : 0 < num) (hd : 0 < den) :
    f.Places (num / den) (f.exponentFor num den) := by
  obtain ⟨hlow, hhigh⟩ := quotient_bounds hn hd
  simp only [exponentFor]
  generalize hl : (num.log2 : Int) - den.log2 - f.precision = l
  have hlow' : (2 : ℚ) ^ ((f.precision : Int) - 1 + l) ≤ num / den := by
    rw [← hl]; convert hlow using 2; ring
  have hhigh' : (num : ℚ) / den < 2 ^ ((f.precision : Int) + (l + 1)) := by
    rw [← hl]; convert hhigh using 2; ring
  -- the test compares the quotient with `2 ^ (precision + l)`
  have htest : twoTo f.precision ≤ (inUnits num den l).1 / (inUnits num den l).2 ↔
      (2 : ℚ) ^ ((f.precision : Int) + l) ≤ num / den := by
    have hpos : (0 : ℚ) < (inUnits num den l).2 := by exact_mod_cast inUnits_pos hd num l
    rw [Nat.le_div_iff_mul_le (inUnits_pos hd num l), two_zpow_add,
      ← le_div_iff₀ (two_zpow_pos l), ← inUnits_div, le_div_iff₀ hpos, zpow_natCast, ← cast_twoTo]
    exact_mod_cast Iff.rfl
  by_cases h : (2 : ℚ) ^ ((f.precision : Int) + l) ≤ num / den
  · rw [if_pos (htest.2 h)]
    refine ⟨le_max_left _ _, hhigh'.trans_le (two_zpow_le (by omega)), ?_⟩
    rcases le_total (l + 1) f.least with hle | hle
    · exact .inl (max_eq_left hle)
    · rw [max_eq_right hle]
      exact .inr (by convert h using 2; ring)
  · rw [if_neg (fun hc => h (htest.1 hc))]
    rw [not_le] at h
    refine ⟨le_max_left _ _, h.trans_le (two_zpow_le (by omega)), ?_⟩
    rcases le_total l f.least with hle | hle
    · exact .inl (max_eq_left hle)
    · rw [max_eq_right hle]
      exact .inr hlow'

theorem Places.le {e e' : Int} (h : f.Places q e) (h' : f.Places q e') : e ≤ e' := by
  rcases h.low with heq | hlow
  · rw [heq]; exact h'.least
  · have hlt : (2 : ℚ) ^ ((f.precision : Int) - 1 + e) < 2 ^ ((f.precision : Int) + e') :=
      hlow.trans_lt h'.high
    rw [zpow_lt_zpow_iff_right₀ (by norm_num)] at hlt
    omega

theorem exponentFor_eq {e : Int} (hn : 0 < num) (hd : 0 < den)
    (h : f.Places (num / den) e) : f.exponentFor num den = e :=
  le_antisymm ((exponentFor_places hn hd).le h) (h.le (exponentFor_places hn hd))

/-! ## The nearest number of a format -/

/-- The number that `round` gives if it is not too large. -/
def nearest (f : Format) (num den : Nat) : Scaled :=
  let e := f.exponentFor num den
  let m := roundDiv (inUnits num den e).1 (inUnits num den e).2
  if m = twoTo f.precision then ⟨twoTo (f.precision - 1), e + 1⟩ else ⟨m, e⟩

theorem round_eq_nearest (hn : 0 < num) :
    f.round num den =
      if f.greatest < (f.nearest num den).exponent then none else some (f.nearest num den) := by
  simp only [round, nearest]
  rw [if_neg (by omega)]
  rfl

/-- A mantissa that overflows stands for the same number with the next
    exponent. -/
theorem nearest_value (hp : 0 < f.precision) (num den : Nat) :
    (f.nearest num den).value =
      roundDiv (inUnits num den (f.exponentFor num den)).1
        (inUnits num den (f.exponentFor num den)).2 * 2 ^ f.exponentFor num den := by
  simp only [nearest]
  split
  case isTrue h =>
    obtain ⟨p, hp⟩ : ∃ p, f.precision = p + 1 := ⟨f.precision - 1, by omega⟩
    rw [h, hp]
    simp only [Scaled.value, cast_twoTo, Nat.add_sub_cancel]
    rw [two_zpow_add, pow_succ, zpow_one]
    ring
  case isFalse => rfl

theorem nearest_near (hp : 0 < f.precision) (hd : 0 < den) :
    |(f.nearest num den).value - num / den| ≤ 2 ^ (f.exponentFor num den - 1) := by
  rw [nearest_value hp]
  generalize f.exponentFor num den = e
  have h := roundDiv_near (inUnits num den e).1 (inUnits_pos hd num e)
  rw [inUnits_div] at h
  have hpos := two_zpow_pos e
  have hsplit : (roundDiv (inUnits num den e).1 (inUnits num den e).2 : ℚ) * 2 ^ e - num / den =
      ((roundDiv (inUnits num den e).1 (inUnits num den e).2 : ℚ) - num / den / 2 ^ e) * 2 ^ e := by
    field_simp
  rw [hsplit, abs_mul, abs_of_pos hpos, sub_eq_add_neg e, two_zpow_add]
  calc _ ≤ 1 / 2 * (2 : ℚ) ^ e := mul_le_mul_of_nonneg_right h hpos.le
    _ = 2 ^ e * 2 ^ (-1 : Int) := by rw [zpow_neg_one]; ring

theorem nearest_exponent_le (num den : Nat) :
    (f.nearest num den).exponent ≤ f.exponentFor num den + 1 := by
  simp only [nearest]
  split
  case isTrue => rfl
  case isFalse => exact Int.le_of_lt (Int.lt_succ _)

/-- Where the format has its full precision, rounding is off by at most one
    part in `2 ^ precision`. -/
theorem round_near (hp : 0 < f.precision) (hn : 0 < num) (hd : 0 < den)
    (hlow : 2 ^ ((f.precision : Int) - 1 + f.least) ≤ (num : ℚ) / den)
    (hhigh : (num : ℚ) / den < 2 ^ ((f.precision : Int) - 1 + f.greatest)) :
    ∃ x, f.round num den = some x ∧
      |x.value - num / den| ≤ num / den * 2 ^ (-(f.precision : Int)) := by
  have hplaces := exponentFor_places (f := f) hn hd
  have hlow' : 2 ^ ((f.precision : Int) - 1 + f.exponentFor num den) ≤ (num : ℚ) / den := by
    rcases hplaces.low with heq | hle
    · rw [heq]; exact hlow
    · exact hle
  have hlt := (hlow'.trans_lt hhigh)
  rw [zpow_lt_zpow_iff_right₀ (by norm_num)] at hlt
  have hexp := nearest_exponent_le (f := f) num den
  refine ⟨f.nearest num den, ?_, (nearest_near hp hd).trans ?_⟩
  · rw [round_eq_nearest hn, if_neg (by omega)]
  · calc (2 : ℚ) ^ (f.exponentFor num den - 1)
        = 2 ^ ((f.precision : Int) - 1 + f.exponentFor num den) * 2 ^ (-(f.precision : Int)) := by
          rw [← two_zpow_add]; congr 1; ring
      _ ≤ num / den * 2 ^ (-(f.precision : Int)) :=
          mul_le_mul_of_nonneg_right hlow' (two_zpow_pos _).le

/-- The numbers of a format, each in the one form that `round` gives. -/
structure Holds (f : Format) (x : Scaled) : Prop where
  mantissa : x.mantissa < twoTo f.precision
  least : f.least ≤ x.exponent
  greatest : x.exponent ≤ f.greatest
  normal : x.exponent = f.least ∨ twoTo (f.precision - 1) ≤ x.mantissa

/-- Counted in units of `2 ^ e`, a quotient is rounded to the number of units
    that it is less than half a unit from. -/
theorem roundDiv_inUnits {m : Nat} {e : Int} (hd : 0 < den)
    (h : |(num : ℚ) / den - m * 2 ^ e| < 2 ^ e / 2) :
    roundDiv (inUnits num den e).1 (inUnits num den e).2 = m := by
  have hpos := two_zpow_pos e
  have hsplit : (num : ℚ) / den / 2 ^ e - m = (num / den - m * 2 ^ e) / 2 ^ e := by field_simp
  refine roundDiv_eq (inUnits_pos hd num e) ?_
  rw [inUnits_div, hsplit, abs_div, abs_of_pos hpos, div_lt_iff₀ hpos]
  linarith

theorem nearest_eq {m : Nat} {e : Int} (hd : 0 < den) (hm : m < twoTo f.precision)
    (hexp : f.exponentFor num den = e) (h : |(num : ℚ) / den - m * 2 ^ e| < 2 ^ e / 2) :
    f.nearest num den = ⟨m, e⟩ := by
  simp only [nearest, hexp, roundDiv_inUnits hd h]
  rw [if_neg (by omega)]

/-- Just below a power of two the units are half as large, and the mantissa
    overflows. -/
theorem nearest_eq_power {p : Nat} {e : Int} (hp : f.precision = p + 1) (hd : 0 < den)
    (hexp : f.exponentFor num den = e - 1) (h : |(num : ℚ) / den - twoTo p * 2 ^ e| < 2 ^ e / 4) :
    f.nearest num den = ⟨twoTo p, e⟩ := by
  have hhalf : (2 : ℚ) ^ e = 2 * 2 ^ (e - 1) := by
    rw [sub_eq_add_neg, two_zpow_add]; norm_num; ring
  have hsame : (twoTo p : ℚ) * 2 ^ e = (twoTo f.precision : ℚ) * 2 ^ (e - 1) := by
    rw [hhalf, hp, cast_twoTo, cast_twoTo]; ring
  have hround : roundDiv (inUnits num den (e - 1)).1 (inUnits num den (e - 1)).2 =
      twoTo f.precision := by
    refine roundDiv_inUnits hd ?_
    rw [← hsame]
    linarith
  simp only [nearest, hexp, hround, if_true, hp, Nat.add_sub_cancel, Int.sub_add_cancel]

/-- A quotient close to a number of the format is rounded to it.  A quarter
    of a unit is close enough, also below a power of two, where the units are
    half as large. -/
theorem round_eq {x : Scaled} (hp : 0 < f.precision) (hx : f.Holds x) (hn : 0 < num)
    (hd : 0 < den) (h : |(num : ℚ) / den - x.value| < 2 ^ (x.exponent - 2)) :
    f.round num den = some x := by
  obtain ⟨m, e⟩ := x
  obtain ⟨hm, hleast, hgreatest, hnormal⟩ := hx
  simp only [Scaled.value] at h hm hleast hgreatest hnormal
  obtain ⟨p, hp⟩ : ∃ p, f.precision = p + 1 := ⟨f.precision - 1, by omega⟩
  have hquarter : (2 : ℚ) ^ (e - 2) = 2 ^ e / 4 := by
    rw [sub_eq_add_neg, two_zpow_add]; norm_num; ring
  rw [hquarter] at h
  obtain ⟨hlow, hhigh⟩ := abs_lt.1 h
  have hpos := two_zpow_pos e
  suffices hnearest : f.nearest num den = ⟨m, e⟩ by
    rw [round_eq_nearest hn, hnearest, if_neg (by simpa using hgreatest)]
  by_cases hbelow : e = f.least ∨ 2 ^ ((f.precision : Int) - 1 + e) ≤ (num : ℚ) / den
  · -- the quotient has the number's own exponent
    refine nearest_eq hd hm (exponentFor_eq hn hd ⟨hleast, ?_, hbelow⟩) (by linarith)
    have hm' : (m : ℚ) + 1 ≤ 2 ^ f.precision := by
      rw [← cast_twoTo]; exact_mod_cast hm
    rw [two_zpow_add, zpow_natCast]
    nlinarith only [hm', hhigh, hpos]
  · -- the number is a power of two and the quotient just below it
    rw [not_or, not_le] at hbelow
    obtain ⟨hne, hlt⟩ := hbelow
    have hplace : (f.precision : Int) - 1 + e = (p : Int) + e := by omega
    rw [hplace, two_zpow_add, zpow_natCast] at hlt
    have hmin : twoTo p ≤ m := by
      have := hnormal.resolve_left hne
      rwa [hp, Nat.add_sub_cancel] at this
    obtain rfl : m = twoTo p := by
      have hmlt : (m : ℚ) < twoTo p + 1 := by
        rw [cast_twoTo]
        nlinarith only [hlow, hlt, hpos]
      have : m < twoTo p + 1 := by exact_mod_cast hmlt
      omega
    refine nearest_eq_power hp hd (exponentFor_eq hn hd ⟨by omega, ?_, .inr ?_⟩) h
    · rwa [show (f.precision : Int) + (e - 1) = (p : Int) + e by omega, two_zpow_add, zpow_natCast]
    · have hone : (1 : ℚ) ≤ 2 ^ p := one_le_pow₀ (by norm_num)
      have hhalf : (2 : ℚ) ^ (e - 1) = 2 ^ e / 2 := by
        rw [sub_eq_add_neg, two_zpow_add]; norm_num; ring
      rw [show (f.precision : Int) - 1 + (e - 1) = (p : Int) + (e - 1) by omega, two_zpow_add,
        zpow_natCast, hhalf]
      rw [cast_twoTo] at hlow
      nlinarith only [hlow, hone, hpos]

end Format

/-! ## Errors of several roundings -/

/-- The factor that allows for one rounding to double precision. -/
def slack : ℚ := 1 + 2 ^ (-52 : Int)

/-- Two positive numbers that differ by no more than `n` roundings to double
    precision may account for. -/
structure Near (n : Nat) (a b : ℚ) : Prop where
  pos : 0 < a
  pos' : 0 < b
  le : a ≤ b * slack ^ n
  ge : b ≤ a * slack ^ n

theorem slack_pos : 0 < slack := by
  norm_num [slack]

namespace Near

variable {m n : Nat} {a b c d : ℚ}

theorem of_error (ha : 0 < b) (h : |a - b| ≤ b * 2 ^ (-53 : Int)) : Near 1 a b := by
  rw [abs_le] at h
  have h53 : (2 : ℚ) ^ (-53 : Int) = 1 / 2 ^ 53 := by norm_num
  rw [h53] at h
  have hs : slack = 1 + 1 / 2 ^ 52 := by norm_num [slack]
  refine ⟨by nlinarith, ha, ?_, ?_⟩
  · rw [hs, pow_one]; nlinarith
  · rw [hs, pow_one]; nlinarith

theorem mono (h : Near m a b) (hmn : m ≤ n) : Near n a b := by
  have hle : slack ^ m ≤ slack ^ n := pow_le_pow_right₀ (by norm_num [slack]) hmn
  exact ⟨h.pos, h.pos', h.le.trans (mul_le_mul_of_nonneg_left hle h.pos'.le),
    h.ge.trans (mul_le_mul_of_nonneg_left hle h.pos.le)⟩

theorem trans (h : Near m a b) (h' : Near n b c) : Near (m + n) a c := by
  have hm : 0 < slack ^ m := pow_pos slack_pos m
  have hn : 0 < slack ^ n := pow_pos slack_pos n
  refine ⟨h.pos, h'.pos', ?_, ?_⟩
  · calc a ≤ b * slack ^ m := h.le
      _ ≤ c * slack ^ n * slack ^ m := mul_le_mul_of_nonneg_right h'.le hm.le
      _ = c * slack ^ (m + n) := by rw [pow_add]; ring
  · calc c ≤ b * slack ^ n := h'.ge
      _ ≤ a * slack ^ m * slack ^ n := mul_le_mul_of_nonneg_right h.ge hn.le
      _ = a * slack ^ (m + n) := by rw [pow_add]; ring

theorem mul (h : Near m a b) (h' : Near n c d) : Near (m + n) (a * c) (b * d) := by
  have hm : 0 < slack ^ m := pow_pos slack_pos m
  have hn : 0 < slack ^ n := pow_pos slack_pos n
  refine ⟨mul_pos h.pos h'.pos, mul_pos h.pos' h'.pos', ?_, ?_⟩
  · calc a * c ≤ b * slack ^ m * (d * slack ^ n) :=
          mul_le_mul h.le h'.le h'.pos.le (mul_pos h.pos' hm).le
      _ = b * d * slack ^ (m + n) := by rw [pow_add]; ring
  · calc b * d ≤ a * slack ^ m * (c * slack ^ n) :=
          mul_le_mul h.ge h'.ge h'.pos'.le (mul_pos h.pos hm).le
      _ = a * c * slack ^ (m + n) := by rw [pow_add]; ring

theorem inv (h : Near n a b) : Near n a⁻¹ b⁻¹ := by
  have hn : 0 < slack ^ n := pow_pos slack_pos n
  have ha := h.pos
  have hb := h.pos'
  refine ⟨inv_pos.2 ha, inv_pos.2 hb, ?_, ?_⟩
  · rw [inv_le_iff_one_le_mul₀ ha, mul_right_comm, mul_assoc, ← div_eq_inv_mul, le_div_iff₀ hb,
      one_mul]
    exact h.ge
  · rw [inv_le_iff_one_le_mul₀ hb, mul_right_comm, mul_assoc, ← div_eq_inv_mul, le_div_iff₀ ha,
      one_mul]
    exact h.le

theorem div (h : Near m a b) (h' : Near n c d) : Near (m + n) (a / c) (b / d) := by
  rw [div_eq_mul_inv, div_eq_mul_inv]
  exact h.mul h'.inv

end Near

end Shading.Number
