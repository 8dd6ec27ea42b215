/-
  Decimal texts of binary numbers.

  `Format.shortest` gives the decimal with the fewest digits among those that
  are read back as the same number, and the nearest of them.  A decimal is a
  pair of digits `c` and exponent `k`, for `c * 10 ^ k`.  `positional` writes
  it without an exponent, always with a digit after the point, `exponential`
  with one.
-/
import Shading.Number.Binary

namespace Shading.Number

/-- The decimals `c * 10 ^ k` and the numbers `n * 2 ^ e`, brought to one
    denominator: `compare (decimalSide c k e) (binarySide n k e)`. -/
def decimalSide (c : Nat) (k e : Int) : Nat :=
  c * tenTo k.toNat * twoTo (-e).toNat

@[inherit_doc decimalSide]
def binarySide (n : Nat) (k e : Int) : Nat :=
  n * twoTo e.toNat * tenTo (-k).toNat

/-- The reals that round to one number, in units of `2 ^ unit`. -/
structure Interval where
  low : Nat
  value : Nat
  high : Nat
  unit : Int
  /-- Whether both ends round to the number. -/
  closed : Bool

/-- The reals that round to the number `x` of the format.  Below a power of
    two the numbers stand twice as close. -/
def Format.interval (f : Format) (x : Scaled) : Interval where
  low :=
    4 * x.mantissa -
      if x.mantissa = twoTo (f.precision - 1) ∧ f.least < x.exponent then 1 else 2
  value := 4 * x.mantissa
  high := 4 * x.mantissa + 2
  unit := x.exponent - 2
  closed := x.mantissa % 2 == 0

/-- Whether `c * 10 ^ k` rounds to the number. -/
def Interval.contains (i : Interval) (c : Nat) (k : Int) : Bool :=
  let d := decimalSide c k i.unit
  let low := binarySide i.low k i.unit
  let high := binarySide i.high k i.unit
  if i.closed then low ≤ d && d ≤ high else low < d && d < high

/-- The multiple of `10 ^ k` nearest to the number among those that round to
    it; the greater one if two are equally near. -/
def Interval.onGrid (i : Interval) (k : Int) : Option Nat :=
  let value := binarySide i.value k i.unit
  let step := decimalSide 1 k i.unit
  let c := value / step
  let below := 0 < c && i.contains c k
  let above := i.contains (c + 1) k
  if above && (!below || step ≤ 2 * (value - c * step)) then some (c + 1)
  else if below then some c
  else none

/-- The coarsest grid `10 ^ k` with a decimal that rounds to the number,
    looking at `steps` grids from `k` downwards. -/
def Interval.coarsest (i : Interval) : (steps : Nat) → (k : Int) → Nat × Int
  | 0, k => (0, k)
  | steps + 1, k =>
    match i.onGrid k with
    | some c => (c, k)
    | none => i.coarsest steps (k - 1)

/-- The shortest decimal that reads back as the number `x` of the format,
    which is not zero.  The first grid looked at is coarser than `x`, and
    seventeen digits below it suffice for every number of 64 bits. -/
def Format.shortest (f : Format) (x : Scaled) : Nat × Int :=
  let top := ((x.mantissa.log2 : Int) + x.exponent + 1) * 30103 / 100000 + 2
  (f.interval x).coarsest 24 top

/-- The digits of `c * 10 ^ k` before and after the point, at least one on
    either side. -/
def places (c : Nat) (k : Int) : List Char × List Char :=
  let digits := Nat.toDigits 10 c
  if 0 ≤ k then (digits ++ List.replicate k.toNat '0', ['0'])
  else
    let after := (-k).toNat
    let padded := List.replicate (after + 1 - digits.length) '0' ++ digits
    padded.splitAt (padded.length - after)

/-- The text of `c * 10 ^ k` without an exponent. -/
def positional (c : Nat) (k : Int) : String :=
  let (whole, fraction) := places c k
  String.ofList whole ++ "." ++ String.ofList fraction

/-- The decimal that stands for a number of the format in texts. -/
def Format.decimal (f : Format) (x : Scaled) : Nat × Int :=
  if x.mantissa = 0 then (0, 0) else f.shortest x

/-- The text of a number of the format with the given sign. -/
def Format.text (f : Format) (negative : Bool) (x : Scaled) : String :=
  let (c, k) := f.decimal x
  (if negative then "-" else "") ++ positional c k

/-- The text of `c * 10 ^ k` with an exponent, one digit before the point, and
    no point if there is nothing after it. -/
def exponential (c : Nat) (k : Int) : String :=
  let digits := Nat.toDigits 10 c
  let fraction := digits.drop 1
  let e := k + fraction.length
  String.ofList (digits.take 1) ++
    (if fraction.isEmpty then "" else "." ++ String.ofList fraction) ++
    (if e < 0 then "e-" else "e+") ++ toString e.natAbs

/-- The text of a number of the format in messages: with an exponent below
    `10 ^ -5` and from `10 ^ 16` on. -/
def Format.compact (f : Format) (negative : Bool) (x : Scaled) : String :=
  let (c, k) := f.decimal x
  let leading := k + (Nat.toDigits 10 c).length - 1
  (if negative then "-" else "") ++
    if -5 ≤ leading && leading < 16 then positional c k else exponential c k

/-- The literal for a number in shader source; there is none for infinities
    and NaN, which become zero. -/
def Single.literal (x : Single) : String :=
  if x.isFinite then single.text x.isNegative x.magnitude else "0.0"

end Shading.Number
