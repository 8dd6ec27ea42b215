/-
  Binary floating point numbers, in exact arithmetic.

  * A `Scaled` is `mantissa * 2 ^ exponent`; a `Format` says which of them a
    number may be (`single`, `double`), and `Format.round` takes a quotient to
    the nearest of them, ties to the even mantissa.
  * A `Single` is the 32 bits of a single precision number.
-/

namespace Shading.Number

/-- The power `2 ^ n`. -/
def twoTo (n : Nat) : Nat := Nat.pow 2 n

/-- The power `10 ^ n`. -/
def tenTo (n : Nat) : Nat := Nat.pow 10 n

/-- The number `mantissa * 2 ^ exponent`. -/
structure Scaled where
  mantissa : Nat
  exponent : Int
  deriving DecidableEq, Repr

/-- The quotient of two whole numbers that a scaled number is. -/
def Scaled.quotient (x : Scaled) : Nat × Nat :=
  (x.mantissa * twoTo x.exponent.toNat, twoTo (-x.exponent).toNat)

/-- A binary format: mantissas have at most `precision` bits, and exponents
    are between `least` and `greatest`. -/
structure Format where
  precision : Nat
  least : Int
  greatest : Int

/-- The format of 32 bit numbers. -/
def single : Format := ⟨24, -149, 104⟩

/-- The format of 64 bit numbers. -/
def double : Format := ⟨53, -1074, 971⟩

/-- The quotient `num / den` rounded to a whole number, a half to the even
    neighbour. -/
def roundDiv (num den : Nat) : Nat :=
  let q := num / den
  let r := num % den
  if 2 * r < den then q
  else if 2 * r = den then q + q % 2
  else q + 1

/-- The quotient `num / den` in units of `2 ^ e`. -/
def inUnits (num den : Nat) (e : Int) : Nat × Nat :=
  (num * twoTo (-e).toNat, den * twoTo e.toNat)

namespace Format

/-- The exponent at which `num / den` has exactly `precision` bits before the
    point, or the least one of the format. -/
def exponentFor (f : Format) (num den : Nat) : Int :=
  let low : Int := (num.log2 : Int) - den.log2 - f.precision
  let scaled := inUnits num den low
  let e := if twoTo f.precision ≤ scaled.1 / scaled.2 then low + 1 else low
  max f.least e

/-- The number of the format nearest to `num / den`; `none` if that is beyond
    the greatest one. -/
def round (f : Format) (num den : Nat) : Option Scaled :=
  if num = 0 then some ⟨0, f.least⟩
  else
    let e := f.exponentFor num den
    let scaled := inUnits num den e
    let m := roundDiv scaled.1 scaled.2
    let x : Scaled :=
      if m = twoTo f.precision then ⟨twoTo (f.precision - 1), e + 1⟩ else ⟨m, e⟩
    if f.greatest < x.exponent then none else some x

end Format

/-- A single precision number, by its bits. -/
structure Single where
  bits : UInt32
  deriving DecidableEq, Repr

namespace Single

/-- Whether the sign bit is set. -/
def isNegative (x : Single) : Bool :=
  twoTo 31 ≤ x.bits.toNat

/-- The exponent field. -/
def field (x : Single) : Nat :=
  x.bits.toNat / twoTo 23 % twoTo 8

/-- Neither an infinity nor a NaN. -/
def isFinite (x : Single) : Bool :=
  x.field != 255

/-- The magnitude of a finite number. -/
def magnitude (x : Single) : Scaled :=
  let fraction := x.bits.toNat % twoTo 23
  if x.field = 0 then ⟨fraction, -149⟩ else ⟨twoTo 23 + fraction, (x.field : Int) - 150⟩

/-- The number with the given sign and magnitude, which is one that
    `single.round` gives; `none` stands for what is beyond the greatest
    number, an infinity. -/
def ofMagnitude (negative : Bool) (x : Option Scaled) : Single :=
  let magnitude :=
    match x with
    | none => 255 * twoTo 23
    | some x =>
      if x.mantissa < twoTo 23 then x.mantissa
      else (x.exponent + 150).toNat * twoTo 23 + (x.mantissa - twoTo 23)
  ⟨(magnitude + if negative then twoTo 31 else 0).toUInt32⟩

/-- The single precision number nearest to `num / den`, with a sign. -/
def ofQuotient (negative : Bool) (num den : Nat) : Single :=
  ofMagnitude negative (single.round num den)

end Single

end Shading.Number
