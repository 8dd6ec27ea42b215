/-
  Single precision numbers are read back from their decimals.

  The decimal of a number lies within half a unit of it in double precision
  (`shortest_spec`), its digits are gathered without loss (`parts_ofDecimal`),
  and the roundings on the way back are too fine to reach another number of
  single precision: `toSingle_ofSingle`.
-/
import Shading.Proofs.Numerals
import Shading.Proofs.Rounding

namespace Shading.Number

/-! ## Decimals against binary numbers -/

/-- The denominator that both sides of a comparison are brought to. -/
def commonDen (k e : Int) : ℚ := 10 ^ (-k).toNat * 2 ^ (-e).toNat

theorem commonDen_pos (k e : Int) : 0 < commonDen k e := by
  unfold commonDen; positivity

theorem cast_decimalSide (c : Nat) (k e : Int) :
    (decimalSide c k e : ℚ) = c * 10 ^ k * commonDen k e := by
  simp only [decimalSide, commonDen, Nat.cast_mul, cast_twoTo, cast_tenTo]
  rw [zpow_eq_div (by norm_num) k]
  field_simp

theorem cast_binarySide (n : Nat) (k e : Int) :
    (binarySide n k e : ℚ) = n * 2 ^ e * commonDen k e := by
  simp only [binarySide, commonDen, Nat.cast_mul, cast_twoTo, cast_tenTo]
  rw [zpow_eq_div (by norm_num) e]
  field_simp

theorem binarySide_le_decimalSide {n c : Nat} {k e : Int} :
    binarySide n k e ≤ decimalSide c k e ↔ (n : ℚ) * 2 ^ e ≤ c * 10 ^ k := by
  rw [← Nat.cast_le (α := ℚ), cast_decimalSide, cast_binarySide,
    mul_le_mul_iff_left₀ (commonDen_pos k e)]

theorem decimalSide_le_binarySide {n c : Nat} {k e : Int} :
    decimalSide c k e ≤ binarySide n k e ↔ (c : ℚ) * 10 ^ k ≤ n * 2 ^ e := by
  rw [← Nat.cast_le (α := ℚ), cast_decimalSide, cast_binarySide,
    mul_le_mul_iff_left₀ (commonDen_pos k e)]

theorem binarySide_lt_decimalSide {n c : Nat} {k e : Int} :
    binarySide n k e < decimalSide c k e ↔ (n : ℚ) * 2 ^ e < c * 10 ^ k := by
  rw [← not_le, decimalSide_le_binarySide, not_le]

theorem decimalSide_lt_binarySide {n c : Nat} {k e : Int} :
    decimalSide c k e < binarySide n k e ↔ (c : ℚ) * 10 ^ k < n * 2 ^ e := by
  rw [← not_le, binarySide_le_decimalSide, not_le]

/-! ## The shortest decimal -/

namespace Interval

variable {i : Interval} {c : Nat} {k : Int}

theorem contains_bounds (h : i.contains c k = true) :
    (i.low : ℚ) * 2 ^ i.unit ≤ c * 10 ^ k ∧ (c : ℚ) * 10 ^ k ≤ i.high * 2 ^ i.unit := by
  simp only [contains] at h
  split at h
  · simp only [Bool.and_eq_true, decide_eq_true_eq] at h
    exact ⟨binarySide_le_decimalSide.1 h.1, decimalSide_le_binarySide.1 h.2⟩
  · simp only [Bool.and_eq_true, decide_eq_true_eq] at h
    exact ⟨(binarySide_lt_decimalSide.1 h.1).le, (decimalSide_lt_binarySide.1 h.2).le⟩

theorem contains_of_lt (hlow : (i.low : ℚ) * 2 ^ i.unit < c * 10 ^ k)
    (hhigh : (c : ℚ) * 10 ^ k < i.high * 2 ^ i.unit) : i.contains c k = true := by
  have h₁ := binarySide_lt_decimalSide.2 hlow
  have h₂ := decimalSide_lt_binarySide.2 hhigh
  simp only [contains]
  split
  · simp only [Bool.and_eq_true, decide_eq_true_eq]
    exact ⟨h₁.le, h₂.le⟩
  · simp only [Bool.and_eq_true, decide_eq_true_eq]
    exact ⟨h₁, h₂⟩

theorem contains_of_onGrid (h : i.onGrid k = some c) : 0 < c ∧ i.contains c k = true := by
  simp only [onGrid] at h
  split at h
  · rename_i habove
    simp only [Bool.and_eq_true] at habove
    cases h
    exact ⟨Nat.succ_pos _, habove.1⟩
  · split at h
    · rename_i hbelow
      simp only [Bool.and_eq_true, decide_eq_true_eq] at hbelow
      cases h
      exact hbelow
    · cases h

/-- A grid finer than the distance to the upper end has a decimal in the
    interval: the first one above the number. -/
theorem onGrid_isSome (hlow : i.low ≤ i.value)
    (hfine : (i.value : ℚ) * 2 ^ i.unit + 10 ^ k < i.high * 2 ^ i.unit) :
    (i.onGrid k).isSome = true := by
  have hstep : 0 < decimalSide 1 k i.unit :=
    Nat.mul_pos (Nat.mul_pos Nat.one_pos (tenTo_pos _)) (twoTo_pos _)
  have hdec (c : Nat) : decimalSide c k i.unit = c * decimalSide 1 k i.unit := by
    simp only [decimalSide, one_mul, mul_assoc]
  have habove : i.contains (binarySide i.value k i.unit / decimalSide 1 k i.unit + 1) k = true := by
    apply contains_of_lt
    · have hlt : binarySide i.value k i.unit <
          decimalSide (binarySide i.value k i.unit / decimalSide 1 k i.unit + 1) k i.unit := by
        rw [hdec]
        exact Nat.lt_mul_of_div_lt (Nat.lt_succ_self _) hstep
      refine lt_of_le_of_lt ?_ (binarySide_lt_decimalSide.1 hlt)
      exact mul_le_mul_of_nonneg_right (by exact_mod_cast hlow) (two_zpow_pos _).le
    · have hle : decimalSide (binarySide i.value k i.unit / decimalSide 1 k i.unit) k i.unit ≤
          binarySide i.value k i.unit := by
        rw [hdec]
        exact Nat.div_mul_le_self _ _
      have := decimalSide_le_binarySide.1 hle
      push_cast
      linarith
  simp only [onGrid, habove, Bool.true_and]
  split
  · rfl
  · rename_i h
    simp only [Bool.or_eq_true, Bool.not_eq_true', not_or, Bool.not_eq_false] at h
    rw [if_pos h.1]
    rfl

/-- Looking through grids ends at the first one with a decimal in the
    interval. -/
theorem coarsest_spec (steps : Nat) (h : ∃ j < steps, (i.onGrid (k - j)).isSome = true) :
    ∃ c k', i.coarsest steps k = (c, k') ∧ 0 < c ∧ i.contains c k' = true ∧
      k - steps < k' ∧ k' ≤ k ∧ (k' = k ∨ i.onGrid (k' + 1) = none) := by
  induction steps generalizing k with
  | zero => obtain ⟨j, hj, -⟩ := h; omega
  | succ steps ih =>
    simp only [coarsest]
    cases hgrid : i.onGrid k with
    | some c =>
      obtain ⟨hpos, hin⟩ := contains_of_onGrid hgrid
      exact ⟨c, k, rfl, hpos, hin, by omega, le_refl k, .inl rfl⟩
    | none =>
      obtain ⟨j, hj, hsome⟩ := h
      have hne : j ≠ 0 := by
        rintro rfl
        simp [hgrid] at hsome
      obtain ⟨c, k', heq, hpos, hin, hlow, hhigh, hlast⟩ := ih (k := k - 1)
        ⟨j - 1, by omega, by
          rwa [show k - 1 - ((j - 1 : Nat) : Int) = k - j by omega]⟩
      refine ⟨c, k', heq, hpos, hin, by omega, by omega, .inr ?_⟩
      rcases hlast with rfl | hlast
      · rwa [Int.sub_add_cancel]
      · exact hlast

end Interval

/-- The first grid looked at for a number below `2 ^ n`. -/
def topGrid (n : Int) : Int := n * 30103 / 100000 + 2

/-- For the sizes of single precision numbers, the last grid looked at is finer
    than half a unit in double precision, and the first one is not much
    finer than that. -/
theorem grids_suffice : ∀ i : Nat, i < 277 →
    decimalSide 1 (topGrid ((i : Int) - 148) - 23) (i - 148 - 54) <
        binarySide 1 (topGrid ((i : Int) - 148) - 23) (i - 148 - 54) ∧
      binarySide 1 (topGrid ((i : Int) - 148) + 1) (i - 148 - 54) ≤
        decimalSide 1 (topGrid ((i : Int) - 148) + 1) (i - 148 - 54) ∧
      -43 ≤ topGrid ((i : Int) - 148) ∧ topGrid ((i : Int) - 148) ≤ 40 := by
  decide +kernel

/-- The decimal of a double precision number of the size of a single precision
    one: within half a unit, with fewer than 58 bits. -/
theorem shortest_spec {x : Scaled} (hlow : twoTo 52 ≤ x.mantissa) (hhigh : x.mantissa < twoTo 53)
    (hmin : -201 ≤ x.exponent) (hmax : x.exponent ≤ 75) :
    ∃ c k, double.shortest x = (c, k) ∧ 0 < c ∧ c < twoTo 58 ∧ -66 ≤ k ∧ k ≤ 40 ∧
      |(c : ℚ) * 10 ^ k - x.value| ≤ 2 ^ (x.exponent - 1) := by
  have hlog : x.mantissa.log2 = 52 := by
    rw [Nat.log2_eq_iff (by have := twoTo_pos 52; omega)]
    exact ⟨hlow, hhigh⟩
  obtain ⟨i, hi, hn⟩ : ∃ i : Nat, i < 277 ∧ (i : Int) - 148 = x.exponent + 53 :=
    ⟨(x.exponent + 201).toNat, by omega, by omega⟩
  obtain ⟨hfine, hcoarse, htop₁, htop₂⟩ := grids_suffice i hi
  rw [hn] at hfine hcoarse htop₁ htop₂
  have hunit : x.exponent + 53 - 54 = x.exponent - 1 := by omega
  rw [hunit] at hfine hcoarse
  rw [decimalSide_lt_binarySide, Nat.cast_one, one_mul, one_mul] at hfine
  rw [binarySide_le_decimalSide, Nat.cast_one, one_mul, one_mul] at hcoarse
  have hhalf : (2 : ℚ) ^ (x.exponent - 1) = 2 * 2 ^ (x.exponent - 2) := by
    rw [show x.exponent - 1 = x.exponent - 2 + 1 by omega, two_zpow_add]; ring
  have hwhole : (2 : ℚ) ^ x.exponent = 4 * 2 ^ (x.exponent - 2) := by
    rw [show x.exponent = x.exponent - 2 + 2 by omega, two_zpow_add]; norm_num; ring
  have hpos := two_zpow_pos (x.exponent - 2)
  -- a grid below half a unit has a decimal in the interval
  have hsome (k : Int) (hk : (10 : ℚ) ^ k < 2 ^ (x.exponent - 1)) :
      ((double.interval x).onGrid k).isSome = true := by
    apply Interval.onGrid_isSome
    · exact Nat.sub_le _ _
    · simp only [Format.interval]
      push_cast
      linarith
  obtain ⟨c, k, heq, hc, hin, hk₁, hk₂, hlast⟩ :=
    Interval.coarsest_spec (i := double.interval x) (k := topGrid (x.exponent + 53)) 24
      ⟨23, by decide, hsome _ hfine⟩
  have hbounds := Interval.contains_bounds hin
  have hval : x.value = x.mantissa * 4 * 2 ^ (x.exponent - 2) := by
    rw [Scaled.value, hwhole]; ring
  have hlow' : (4 * (x.mantissa : ℚ) - 2) ≤ (double.interval x).low := by
    have : 4 * x.mantissa ≤ (double.interval x).low + 2 := by
      simp only [Format.interval]
      split <;> omega
    have : 4 * (x.mantissa : ℚ) ≤ (double.interval x).low + 2 := by exact_mod_cast this
    linarith
  have hhigh' : ((double.interval x).high : ℚ) = 4 * x.mantissa + 2 := by
    simp only [Format.interval]; push_cast; ring
  have hunit' : (double.interval x).unit = x.exponent - 2 := rfl
  rw [hhigh', hunit'] at hbounds
  -- the grid that was chosen is not much finer than half a unit
  have hgrid : (2 : ℚ) ^ (x.exponent - 1) ≤ 10 ^ k * 10 := by
    have hten : (10 : ℚ) ^ k * 10 = 10 ^ (k + 1) := (zpow_add_one₀ (by norm_num) k).symm
    rw [hten]
    rcases hlast with rfl | hnone
    · exact hcoarse
    · by_contra hc
      have := hsome (k + 1) (lt_of_not_ge hc)
      simp [hnone] at this
  refine ⟨c, k, ?_, hc, ?_, by omega, by omega, ?_⟩
  · simp only [Format.shortest, hlog]
    rw [← heq, topGrid]
    congr 3
    omega
  · have hm : (x.mantissa : ℚ) + 1 ≤ 2 ^ 53 := by
      have : ((x.mantissa + 1 : Nat) : ℚ) ≤ (twoTo 53 : ℚ) := by exact_mod_cast hhigh
      rw [cast_twoTo] at this
      exact_mod_cast this
    have hkpos : (0 : ℚ) < 10 ^ k := zpow_pos (by norm_num) k
    have hclt : (c : ℚ) < 2 ^ 58 := by
      by_contra hc
      rw [not_lt] at hc
      nlinarith
    rw [← cast_twoTo] at hclt
    exact_mod_cast hclt
  · rw [abs_le, hhalf, hval]
    constructor <;> nlinarith [hbounds.1, hbounds.2]

end Shading.Number

namespace Shading.Json

open Number

/-! ## Digits -/

/-- The number that a run of digits makes behind the number `n`. -/
def digitsFrom (n : Nat) (ds : List (Fin 10)) : Nat :=
  ds.foldl (fun n (d : Fin 10) => 10 * n + d.val) n

theorem digitsFrom_append (n : Nat) (ds es : List (Fin 10)) :
    digitsFrom n (ds ++ es) = digitsFrom (digitsFrom n ds) es :=
  List.foldl_append

theorem le_digitsFrom (n : Nat) (ds : List (Fin 10)) : n ≤ digitsFrom n ds := by
  induction ds generalizing n with
  | nil => exact le_refl n
  | cons d ds ih =>
    have := ih (10 * n + d.val)
    show n ≤ digitsFrom (10 * n + d.val) ds
    omega

theorem digitsFrom_map_digitOf {cs : List Char} (h : ∀ c ∈ cs, c.isDigit = true) (n : Nat) :
    digitsFrom n (cs.map digitOf) = Nat.ofDigitChars 10 cs n := by
  induction cs generalizing n with
  | nil => rfl
  | cons c cs ih =>
    rw [Nat.ofDigitChars_cons, ← ih (fun d hd => h d (List.mem_cons_of_mem c hd)),
      ← digitOf_val (h c (List.mem_cons_self ..))]
    rfl

theorem digitsFrom_toDigits (c : Nat) :
    digitsFrom 0 ((Nat.toDigits 10 c).map digitOf) = c := by
  rw [digitsFrom_map_digitOf (fun d hd => Nat.isDigit_of_mem_toDigits (by decide) (by decide) hd),
    Nat.ofDigitChars_toDigits (by decide) (by decide)]

theorem digitsFrom_zeros (n m : Nat) :
    digitsFrom n ((List.replicate m '0').map digitOf) = n * 10 ^ m := by
  induction m generalizing n with
  | zero => exact (Nat.mul_one n).symm
  | succ m ih =>
    show digitsFrom (10 * n + 0) ((List.replicate m '0').map digitOf) = _
    rw [ih, pow_succ]
    ring

namespace Numeral

/-! ## Gathering the digits -/

theorem gather_eq {n : Nat} {ds : List (Fin 10)} (h : digitsFrom n ds < twoTo 64) :
    gather n ds = (digitsFrom n ds, 0) := by
  induction ds generalizing n with
  | nil => rfl
  | cons d ds ih =>
    change digitsFrom (10 * n + d.val) ds < twoTo 64 at h
    simp only [gather]
    rw [if_pos (lt_of_le_of_lt (le_digitsFrom _ ds) h), ih h]
    rfl

/-- Digits that do not fit are counted, and zeros are all that is lost. -/
theorem gather_zeros {n : Nat} (h : n < twoTo 64) (m : Nat) :
    ∃ s left, gather n ((List.replicate m '0').map digitOf) = (s, left) ∧ n ≤ s ∧
      s < twoTo 64 ∧ s * 10 ^ left = n * 10 ^ m ∧ left ≤ m ∧ (left = 0 ∨ twoTo 64 ≤ 10 * s) := by
  induction m generalizing n with
  | zero => exact ⟨n, 0, rfl, le_refl n, h, rfl, le_refl 0, .inl rfl⟩
  | succ m ih =>
    have hstep : gather n ((List.replicate (m + 1) '0').map digitOf) =
        if 10 * n < twoTo 64 then gather (10 * n) ((List.replicate m '0').map digitOf)
        else (n, ((List.replicate m '0').map digitOf).length + 1) := rfl
    rw [hstep]
    by_cases hlt : 10 * n < twoTo 64
    · obtain ⟨s, left, heq, hle, hs, hval, hleft, hfull⟩ := ih hlt
      rw [if_pos hlt]
      refine ⟨s, left, heq, by omega, hs, ?_, by omega, hfull⟩
      rw [hval, pow_succ]
      ring
    · rw [if_neg hlt]
      exact ⟨n, m + 1, by simp, le_refl n, h, rfl, le_refl _, .inr (by omega)⟩

theorem gather_append (n : Nat) (ds es : List (Fin 10)) (h : digitsFrom n ds < twoTo 64) :
    gather n (ds ++ es) = gather (digitsFrom n ds) es := by
  induction ds generalizing n with
  | nil => rfl
  | cons d ds ih =>
    change digitsFrom (10 * n + d.val) ds < twoTo 64 at h
    simp only [List.cons_append, gather]
    rw [if_pos (lt_of_le_of_lt (le_digitsFrom _ ds) h), ih _ h]
    rfl

theorem fraction_ofDecimal_ne (negative : Bool) (c : Nat) (k : Int) :
    (ofDecimal negative c k).fraction ≠ [] := by
  by_cases hk : 0 ≤ k
  · simp [ofDecimal, places, hk]
  · simp only [ofDecimal, places, hk, if_false, List.splitAt_eq]
    intro hnil
    have := congrArg List.length hnil
    simp only [List.length_map, List.length_drop, List.length_append, List.length_replicate,
      List.length_nil] at this
    omega

/-- The significand and the exponent that the digits of a decimal leave make
    the same number. -/
theorem parts_ofDecimal (negative : Bool) {c : Nat} (hc : 0 < c) (hlt : c < twoTo 58) (k : Int) :
    ∃ s e, (ofDecimal negative c k).parts = (s, e) ∧ 0 < s ∧ s < twoTo 64 ∧
      (s : ℚ) * 10 ^ e = c * 10 ^ k ∧ min k (-1) ≤ e ∧ e ≤ max k 0 := by
  have h58 : twoTo 58 ≤ twoTo 64 := by decide
  have hdigits := digitsFrom_toDigits c
  by_cases hk : 0 ≤ k
  · obtain ⟨m, rfl⟩ := Int.eq_ofNat_of_zero_le hk
    obtain ⟨s, left, heq, hle, hs, hval, hleft, hfull⟩ := gather_zeros (n := c) (by omega) m
    have hwhole : gather 0 (ofDecimal negative c m).whole = (s, left) := by
      simp only [ofDecimal, places, hk, if_true, Int.toNat_natCast, List.map_append]
      rw [gather_append _ _ _ (by rw [hdigits]; omega), hdigits, heq]
    have hfraction : gather s (ofDecimal negative c m).fraction =
        if 10 * s < twoTo 64 then (10 * s, 0) else (s, 1) := by
      simp only [ofDecimal, places, hk, if_true]
      rfl
    have hlength : (ofDecimal negative c m).fraction.length = 1 := by
      simp only [ofDecimal, places, hk, if_true]
      rfl
    have hcast : (s : ℚ) * 10 ^ left = c * 10 ^ m := by exact_mod_cast hval
    by_cases hroom : 10 * s < twoTo 64
    · -- there is room for the zero behind the point as well
      obtain rfl : left = 0 := hfull.resolve_right (by omega)
      refine ⟨10 * s, -1, ?_, by omega, hroom, ?_, min_le_right _ _, by omega⟩
      · simp only [parts, hwhole, hfraction, hlength, if_pos hroom]
        rfl
      · rw [zpow_natCast, ← hcast]
        push_cast
        norm_num
        ring
    · refine ⟨s, left, ?_, by omega, hs, ?_, by omega, by omega⟩
      · simp only [parts, hwhole, hfraction, hlength, if_neg hroom]
        simp
      · rw [zpow_natCast, zpow_natCast, hcast]
  · -- all digits of the decimal are gathered
    have hparts :
        digitsFrom 0 ((ofDecimal negative c k).whole ++ (ofDecimal negative c k).fraction) = c := by
      simp only [ofDecimal, places, hk, if_false, List.splitAt_eq, ← List.map_append,
        List.take_append_drop]
      rw [List.map_append, digitsFrom_append, digitsFrom_zeros, Nat.zero_mul, hdigits]
    have hlength : (ofDecimal negative c k).fraction.length = (-k).toNat := by
      simp only [ofDecimal, places, hk, if_false, List.splitAt_eq, List.length_map,
        List.length_drop, List.length_append, List.length_replicate]
      omega
    rw [digitsFrom_append] at hparts
    have hwhole : gather 0 (ofDecimal negative c k).whole =
        (digitsFrom 0 (ofDecimal negative c k).whole, 0) := by
      apply gather_eq
      have := le_digitsFrom (digitsFrom 0 (ofDecimal negative c k).whole)
        (ofDecimal negative c k).fraction
      omega
    have hfraction : gather (digitsFrom 0 (ofDecimal negative c k).whole)
        (ofDecimal negative c k).fraction = (c, 0) := by
      rw [gather_eq (by omega), hparts]
    refine ⟨c, k, ?_, hc, by omega, rfl, min_le_left _ _, le_max_left _ _⟩
    simp only [parts, hwhole, hfraction, hlength]
    congr 1
    omega

/-! ## Double precision -/

theorem round_double {num den : Nat} (hn : 0 < num) (hd : 0 < den)
    (hlow : 2 ^ (-202 : Int) ≤ (num : ℚ) / den) (hhigh : (num : ℚ) / den ≤ 2 ^ (250 : Int)) :
    ∃ x, Number.double.round num den = some x ∧ Near 1 x.value (num / den) := by
  have hpos : (0 : ℚ) < num / den := (two_zpow_pos _).trans_le hlow
  obtain ⟨x, hx, herror⟩ := Format.round_near (f := Number.double) (by decide) hn hd
    ((two_zpow_le (by decide)).trans hlow)
    (hhigh.trans_lt (zpow_lt_zpow_right₀ (by norm_num) (by decide)))
  exact ⟨x, hx, Near.of_error hpos herror⟩

theorem near_powerOfTen {k : Nat} (hk : k ≤ 70) :
    Near 1 (powerOfTen k).value (10 ^ k) := by
  have hcast : ((tenTo k : Nat) : ℚ) / (1 : Nat) = 10 ^ k := by rw [cast_tenTo]; simp
  have hone : (1 : ℚ) ≤ 10 ^ k := one_le_pow₀ (by norm_num)
  have hmax : (10 : ℚ) ^ k ≤ 10 ^ 70 := pow_le_pow_right₀ (by norm_num) hk
  obtain ⟨x, hx, hnear⟩ := round_double (tenTo_pos k) Nat.one_pos
    (by rw [hcast]; exact le_trans (by norm_num) hone)
    (by rw [hcast]; exact hmax.trans (by norm_num))
  rw [hcast] at hnear
  simp only [powerOfTen, hx, Option.getD_some]
  exact hnear

theorem quotient_pos_of_value {x : Scaled} (h : 0 < x.value) : 0 < x.quotient.1 := by
  rcases Nat.eq_zero_or_pos x.quotient.1 with hz | hpos
  · rw [Scaled.value_eq_quotient, hz] at h
    simp at h
  · exact hpos

theorem near_times {x y : Scaled} (hx : 0 < x.value) (hy : 0 < y.value)
    (hlow : 2 ^ (-202 : Int) ≤ x.value * y.value) (hhigh : x.value * y.value ≤ 2 ^ (250 : Int)) :
    ∃ z, times x y = some z ∧ Near 1 z.value (x.value * y.value) := by
  have heq : x.value * y.value =
      ((x.quotient.1 * y.quotient.1 : Nat) : ℚ) / ((x.quotient.2 * y.quotient.2 : Nat) : ℚ) := by
    rw [Scaled.value_eq_quotient, Scaled.value_eq_quotient, div_mul_div_comm]
    push_cast
    rfl
  rw [heq] at hlow hhigh ⊢
  exact round_double (Nat.mul_pos (quotient_pos_of_value hx) (quotient_pos_of_value hy))
    (Nat.mul_pos x.quotient_pos y.quotient_pos) hlow hhigh

theorem near_dividedBy {x y : Scaled} (hx : 0 < x.value) (hy : 0 < y.value)
    (hlow : 2 ^ (-202 : Int) ≤ x.value / y.value) (hhigh : x.value / y.value ≤ 2 ^ (250 : Int)) :
    ∃ z, dividedBy x y = some z ∧ Near 1 z.value (x.value / y.value) := by
  have heq : x.value / y.value =
      ((x.quotient.1 * y.quotient.2 : Nat) : ℚ) / ((x.quotient.2 * y.quotient.1 : Nat) : ℚ) := by
    rw [Scaled.value_eq_quotient, Scaled.value_eq_quotient, div_div_div_eq]
    push_cast
    rfl
  rw [heq] at hlow hhigh ⊢
  exact round_double (Nat.mul_pos (quotient_pos_of_value hx) y.quotient_pos)
    (Nat.mul_pos x.quotient_pos (quotient_pos_of_value hy)) hlow hhigh

/-- Scaling by a power of ten takes two more roundings. -/
theorem near_scale {x : Scaled} {s : ℚ} {e : Int} (hx : Near 1 x.value s) (he₁ : -70 ≤ e)
    (he₂ : e ≤ 70) (hlow : 2 ^ (-200 : Int) ≤ s * 10 ^ e) (hhigh : s * 10 ^ e ≤ 2 ^ (200 : Int)) :
    ∃ y, scale x e = some y ∧ Near 4 y.value (s * 10 ^ e) := by
  have hmantissa : x.mantissa ≠ 0 := by
    intro hz
    have := hx.pos
    simp [Scaled.value, hz] at this
  have hrange {z : ℚ} (hz : Near 2 z (s * 10 ^ e)) :
      2 ^ (-202 : Int) ≤ z ∧ z ≤ 2 ^ (250 : Int) := by
    have h₁ : s * 10 ^ e ≤ z * 4 := hz.ge.trans
      (mul_le_mul_of_nonneg_left (by norm_num [slack]) hz.pos.le)
    have h₂ : z ≤ s * 10 ^ e * 4 := hz.le.trans
      (mul_le_mul_of_nonneg_left (by norm_num [slack]) hz.pos'.le)
    norm_num at hlow hhigh ⊢
    constructor <;> linarith
  rw [scale]
  rw [if_neg hmantissa, if_neg (by omega)]
  by_cases he : 0 ≤ e
  · obtain ⟨k, rfl⟩ := Int.eq_ofNat_of_zero_le he
    rw [if_pos he, Int.toNat_natCast]
    have hpower := near_powerOfTen (k := k) (by omega)
    have hprod := hx.mul hpower
    rw [← zpow_natCast] at hprod
    obtain ⟨hl, hh⟩ := hrange hprod
    obtain ⟨y, hy, hnear⟩ := near_times hx.pos hpower.pos hl hh
    exact ⟨y, hy, (hnear.trans hprod).mono (by decide)⟩
  · rw [if_neg he, if_pos (by omega)]
    have hpower := near_powerOfTen (k := (-e).toNat) (by omega)
    have hquot := hx.div hpower
    have hten : s / 10 ^ (-e).toNat = s * 10 ^ e := by
      rw [← zpow_natCast, div_eq_mul_inv, ← zpow_neg]
      congr 2
      omega
    rw [hten] at hquot
    obtain ⟨hl, hh⟩ := hrange hquot
    obtain ⟨y, hy, hnear⟩ := near_dividedBy hx.pos hpower.pos hl hh
    exact ⟨y, hy, (hnear.trans hquot).mono (by decide)⟩

/-! ## Single precision -/

/-- The magnitude of a single precision number with the mantissa that it has in
    double precision. -/
def widened (m : Scaled) : Scaled :=
  ⟨m.mantissa * twoTo (52 - m.mantissa.log2), m.exponent - (52 - m.mantissa.log2 : Nat)⟩

theorem widened_value (m : Scaled) : (widened m).value = m.value := by
  simp only [widened, Scaled.value, Nat.cast_mul, cast_twoTo]
  rw [mul_assoc, ← zpow_natCast, ← two_zpow_add]
  congr 2
  omega

theorem widened_spec {m : Scaled} (hm : single.Holds m) (hne : m.mantissa ≠ 0) :
    twoTo 52 ≤ (widened m).mantissa ∧ (widened m).mantissa < twoTo 53 ∧
      -201 ≤ (widened m).exponent ∧ (widened m).exponent ≤ 75 := by
  obtain ⟨hmantissa, hleast, hgreatest, hnormal⟩ := hm
  simp only [single] at hmantissa hleast hgreatest hnormal
  have hlog : m.mantissa.log2 < 24 := (Nat.log2_lt hne).2 hmantissa
  have hsplit (a : Nat) : twoTo a * twoTo (52 - m.mantissa.log2) =
      twoTo (a + (52 - m.mantissa.log2)) := (Nat.pow_add 2 a _).symm
  have h₁ : twoTo m.mantissa.log2 * twoTo (52 - m.mantissa.log2) ≤ (widened m).mantissa :=
    Nat.mul_le_mul_right _ (Nat.log2_self_le hne)
  have h₂ : (widened m).mantissa < twoTo (m.mantissa.log2 + 1) * twoTo (52 - m.mantissa.log2) :=
    Nat.mul_lt_mul_of_pos_right Nat.lt_log2_self (twoTo_pos _)
  rw [hsplit] at h₁ h₂
  rw [show m.mantissa.log2 + (52 - m.mantissa.log2) = 52 by omega] at h₁
  rw [show m.mantissa.log2 + 1 + (52 - m.mantissa.log2) = 53 by omega] at h₂
  refine ⟨h₁, h₂, ?_, ?_⟩
  · show -201 ≤ m.exponent - (52 - m.mantissa.log2 : Nat)
    omega
  · show m.exponent - (52 - m.mantissa.log2 : Nat) ≤ 75
    rcases hnormal with heq | hfull
    · omega
    · have : 23 ≤ m.mantissa.log2 := (Nat.le_log2 hne).2 hfull
      omega

/-- The decimal of a number other than zero is read, in double precision, as a
    number very near to it. -/
theorem near_double? {m : Scaled} (hm : single.Holds m) (hne : m.mantissa ≠ 0) (negative : Bool) :
    ∃ y, (ofDecimal negative (Number.double.shortest (widened m)).1
      (Number.double.shortest (widened m)).2).double? = some y ∧ Near 5 y.value m.value := by
  obtain ⟨hlow, hhigh, hmin, hmax⟩ := widened_spec hm hne
  obtain ⟨c, k, heq, hc, hclt, hk₁, hk₂, herror⟩ := shortest_spec hlow hhigh hmin hmax
  obtain ⟨s, e, hparts, hs, hslt, hval, he₁, he₂⟩ := parts_ofDecimal negative hc hclt k
  rw [heq]
  -- the number in double precision is at least `2 ^ 52` of the units that the decimal is good to
  have hlow' : (2 : ℚ) ^ 52 ≤ (widened m).mantissa := by
    rw [← cast_twoTo]; exact_mod_cast hlow
  have hhigh' : ((widened m).mantissa : ℚ) ≤ 2 ^ 53 := by
    rw [← cast_twoTo]; exact_mod_cast hhigh.le
  have hpos := two_zpow_pos (widened m).exponent
  have hvalue : 2 ^ (52 : Int) * 2 ^ (widened m).exponent ≤ (widened m).value :=
    mul_le_mul_of_nonneg_right hlow' hpos.le
  have hvpos : 0 < (widened m).value := (mul_pos (two_zpow_pos _) hpos).trans_le hvalue
  have hdecimal : Near 1 ((s : ℚ) * 10 ^ e) m.value := by
    rw [← widened_value, hval]
    refine Near.of_error hvpos (herror.trans ?_)
    calc (2 : ℚ) ^ ((widened m).exponent - 1)
        = 2 ^ (52 : Int) * 2 ^ (widened m).exponent * 2 ^ (-53 : Int) := by
          rw [← two_zpow_add, ← two_zpow_add]; congr 1; ring
      _ ≤ (widened m).value * 2 ^ (-53 : Int) :=
          mul_le_mul_of_nonneg_right hvalue (two_zpow_pos _).le
  have hsize : (2 : ℚ) ^ (-149 : Int) ≤ m.value ∧ m.value ≤ 2 ^ (128 : Int) := by
    rw [← widened_value]
    constructor
    · refine le_trans ?_ hvalue
      rw [← two_zpow_add]
      exact two_zpow_le (by omega)
    · calc (widened m).value ≤ 2 ^ (53 : Int) * 2 ^ (widened m).exponent :=
            mul_le_mul_of_nonneg_right hhigh' hpos.le
        _ ≤ 2 ^ (128 : Int) := by
            rw [← two_zpow_add]; exact two_zpow_le (by omega)
  have hrange : (2 : ℚ) ^ (-200 : Int) ≤ s * 10 ^ e ∧ (s : ℚ) * 10 ^ e ≤ 2 ^ (200 : Int) := by
    have h₁ : m.value ≤ s * 10 ^ e * 2 := hdecimal.ge.trans
      (mul_le_mul_of_nonneg_left (by norm_num [slack]) hdecimal.pos.le)
    have h₂ : s * 10 ^ e ≤ m.value * 2 := hdecimal.le.trans
      (mul_le_mul_of_nonneg_left (by norm_num [slack]) hdecimal.pos'.le)
    obtain ⟨hsize₁, hsize₂⟩ := hsize
    norm_num at hsize₁ hsize₂ ⊢
    constructor <;> linarith
  have hcast : (s : ℚ) / (1 : Nat) = s := by simp
  have hs₁ : (1 : ℚ) ≤ s := by exact_mod_cast hs
  have hs₂ : (s : ℚ) ≤ 2 ^ 64 := by rw [← cast_twoTo]; exact_mod_cast hslt.le
  obtain ⟨x, hx, hnear⟩ := round_double hs Nat.one_pos
    (by rw [hcast]; exact le_trans (by norm_num) hs₁)
    (by rw [hcast]; exact hs₂.trans (by norm_num))
  rw [hcast] at hnear
  obtain ⟨y, hy, hscale⟩ := near_scale hnear (e := e) (by omega) (by omega) hrange.1 hrange.2
  refine ⟨y, ?_, hscale.trans hdecimal⟩
  simp only [double?, hparts, hx, Option.bind_some]
  exact hy

end Numeral

end Shading.Json

namespace Shading.Number.Single

theorem holds_magnitude {x : Single} (h : x.isFinite = true) : single.Holds x.magnitude := by
  have h23 : twoTo 23 = 8388608 := rfl
  have h24 : twoTo 24 = 16777216 := rfl
  have h8 : twoTo 8 = 256 := rfl
  have hfield : x.field < 256 := by
    rw [field, h8]; exact Nat.mod_lt _ (by decide)
  have hne : x.field ≠ 255 := by simpa [isFinite] using h
  have hfraction : x.bits.toNat % twoTo 23 < 8388608 := Nat.mod_lt _ (by decide)
  by_cases hz : x.field = 0
  · have heq : x.magnitude = ⟨x.bits.toNat % twoTo 23, -149⟩ := by
      simp only [magnitude]; rw [if_pos hz]
    rw [heq]
    refine ⟨?_, le_refl _, ?_, .inl rfl⟩
    · show x.bits.toNat % twoTo 23 < twoTo 24
      omega
    · show (-149 : Int) ≤ 104
      omega
  · have heq : x.magnitude = ⟨twoTo 23 + x.bits.toNat % twoTo 23, (x.field : Int) - 150⟩ := by
      simp only [magnitude]; rw [if_neg hz]
    rw [heq]
    refine ⟨?_, ?_, ?_, .inr ?_⟩
    · show twoTo 23 + x.bits.toNat % twoTo 23 < twoTo 24
      omega
    · show (-149 : Int) ≤ (x.field : Int) - 150
      omega
    · show (x.field : Int) - 150 ≤ 104
      omega
    · exact Nat.le_add_right _ _

/-- A finite number is its sign and its magnitude. -/
theorem ofMagnitude_magnitude {x : Single} (h : x.isFinite = true) :
    ofMagnitude x.isNegative (some x.magnitude) = x := by
  obtain ⟨bits⟩ := x
  have h23 : twoTo 23 = 8388608 := rfl
  have h31 : twoTo 31 = 2147483648 := rfl
  have h8 : twoTo 8 = 256 := rfl
  have hbits : bits.toNat < 4294967296 := bits.toNat_lt
  simp only [isFinite, field, bne_iff_ne, ne_eq, h23, h8] at h
  suffices hsum : ofMagnitude (isNegative ⟨bits⟩) (some (magnitude ⟨bits⟩)) =
      ⟨(bits.toNat).toUInt32⟩ by
    rw [hsum]; simp
  simp only [ofMagnitude, magnitude, isNegative, field, h23, h8, h31, decide_eq_true_eq]
  by_cases hz : bits.toNat / 8388608 % 256 = 0
  · rw [if_pos hz, if_pos (show bits.toNat % 8388608 < 8388608 by omega)]
    refine congrArg (fun n : Nat => (⟨n.toUInt32⟩ : Single)) ?_
    show bits.toNat % 8388608 + _ = _
    split <;> omega
  · rw [if_neg hz, if_neg (show ¬8388608 + bits.toNat % 8388608 < 8388608 by omega)]
    refine congrArg (fun n : Nat => (⟨n.toUInt32⟩ : Single)) ?_
    show (((bits.toNat / 8388608 % 256 : Nat) : Int) - 150 + 150).toNat * 8388608 +
      (8388608 + bits.toNat % 8388608 - 8388608) + _ = _
    split <;> omega

/-- What is read very near to a finite number is that number. -/
theorem ofQuotient_near {x : Single} (h : x.isFinite = true) {y : Scaled}
    (hy : Near 5 y.value x.magnitude.value) :
    ofQuotient x.isNegative y.quotient.1 y.quotient.2 = x := by
  have hholds := holds_magnitude h
  have hmantissa : (x.magnitude.mantissa : ℚ) ≤ 2 ^ 24 := by
    rw [← cast_twoTo]; exact_mod_cast hholds.mantissa.le
  have hpos := two_zpow_pos x.magnitude.exponent
  have hvalue : x.magnitude.value ≤ 2 ^ 24 * 2 ^ x.magnitude.exponent :=
    mul_le_mul_of_nonneg_right hmantissa hpos.le
  have hslack : slack ^ 5 ≤ 1 + 1 / 2 ^ 40 := by norm_num [slack]
  have hround : single.round y.quotient.1 y.quotient.2 = some x.magnitude := by
    refine Format.round_eq (by decide) hholds (Json.Numeral.quotient_pos_of_value hy.pos)
      y.quotient_pos ?_
    rw [← Scaled.value_eq_quotient, sub_eq_add_neg x.magnitude.exponent, two_zpow_add, abs_lt]
    have h₁ : y.value ≤ x.magnitude.value * (1 + 1 / 2 ^ 40) :=
      hy.le.trans (mul_le_mul_of_nonneg_left hslack hy.pos'.le)
    have h₂ : x.magnitude.value ≤ y.value * (1 + 1 / 2 ^ 40) :=
      hy.ge.trans (mul_le_mul_of_nonneg_left hslack hy.pos.le)
    norm_num at h₁ h₂ hvalue ⊢
    constructor <;> nlinarith
  rw [ofQuotient, hround, ofMagnitude_magnitude h]

end Shading.Number.Single

namespace Shading.Json.Numeral

open Number

theorem toSingle_ofDecimal (negative : Bool) (c : Nat) (k : Int) :
    (ofDecimal negative c k).toSingle = (ofDecimal negative c k).viaDouble := by
  have hne := fraction_ofDecimal_ne negative c k
  have hwhole : (ofDecimal negative c k).isWhole = false := by
    simp [isWhole, hne]
  simp only [toSingle, magnitude64?, hwhole, Bool.not_false, if_true]

theorem ofSingle_zero {x : Single} (h : x.magnitude.mantissa = 0) :
    ofSingle x = ofDecimal x.isNegative 0 0 := by
  simp [ofSingle, Format.decimal, h]

theorem ofSingle_widened {x : Single} (h : x.magnitude.mantissa ≠ 0) :
    ofSingle x = ofDecimal x.isNegative (Number.double.shortest (widened x.magnitude)).1
      (Number.double.shortest (widened x.magnitude)).2 := by
  have hwide : x.magnitude.mantissa * twoTo (52 - x.magnitude.mantissa.log2) ≠ 0 :=
    Nat.mul_ne_zero h (Nat.ne_of_gt (twoTo_pos _))
  simp only [ofSingle, Format.decimal, h, if_false]
  rw [if_neg hwide]
  rfl

/-- A finite number of single precision is read back from its numeral, and the
    numeral is in the range of double precision. -/
theorem toSingle_ofSingle {x : Single} (h : x.isFinite = true) :
    (ofSingle x).inRange = true ∧ (ofSingle x).toSingle = x := by
  have hholds := Single.holds_magnitude h
  by_cases hzero : x.magnitude.mantissa = 0
  · have hdouble : (ofDecimal x.isNegative 0 0).double? = some ⟨0, -1074⟩ := by
      have hparts : (ofDecimal x.isNegative 0 0).parts = (0, -1) := rfl
      have hround : Number.double.round 0 1 = some ⟨0, -1074⟩ := rfl
      have hscale : scale ⟨0, -1074⟩ (-1) = some ⟨0, -1074⟩ := by
        rw [scale]; rfl
      simp only [double?, hparts, hround, Option.bind_some]
      exact hscale
    have hmagnitude : x.magnitude = ⟨0, -149⟩ := by
      have hexp : x.magnitude.exponent = -149 := by
        rcases hholds.normal with heq | hfull
        · exact heq
        · rw [hzero] at hfull
          exact absurd (twoTo_pos (single.precision - 1)) (by omega)
      rw [← hzero, ← hexp]
    rw [ofSingle_zero hzero, toSingle_ofDecimal]
    refine ⟨by simp [inRange, hdouble], ?_⟩
    simp only [viaDouble, hdouble]
    have hround : single.round (Scaled.quotient ⟨0, -1074⟩).1 (Scaled.quotient ⟨0, -1074⟩).2 =
        some x.magnitude := by
      rw [hmagnitude]; rfl
    show Single.ofMagnitude x.isNegative _ = x
    rw [hround, Single.ofMagnitude_magnitude h]
  · obtain ⟨y, hy, hnear⟩ := near_double? hholds hzero x.isNegative
    rw [ofSingle_widened hzero, toSingle_ofDecimal]
    refine ⟨by simp [inRange, hy], ?_⟩
    simp only [viaDouble, hy]
    exact Single.ofQuotient_near h hnear

end Shading.Json.Numeral
