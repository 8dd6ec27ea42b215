/-
  Numerals of JSON texts and the numbers they stand for.

  A `Numeral` keeps the digits as written.  Its double precision value is
  found in two roundings: digits are gathered into a significand of 64 bits,
  and the rounded significand is scaled by a rounded power of ten (`double?`).
  A whole number that fits 64 bits becomes a single precision number
  directly, any other number by way of double precision (`toSingle`), and
  messages tell the two apart (`describe`).
-/
import Shading.Number.Shortest

namespace Shading.Json

open Number

/-- A number as written: sign, digits before and after the point, and the sign
    and the digits of the exponent. -/
structure Numeral where
  negative : Bool
  whole : List (Fin 10)
  fraction : List (Fin 10)
  exponent : Option (Bool × List (Fin 10))
  deriving DecidableEq, Repr

/-- The digit that a character stands for. -/
def digitOf (c : Char) : Fin 10 :=
  Fin.ofNat 10 (c.toNat - '0'.toNat)

/-- The character that stands for a digit. -/
def digitChar (d : Fin 10) : Char :=
  Char.ofNat ('0'.toNat + d)

/-- The text of a run of digits. -/
def digitText (ds : List (Fin 10)) : String :=
  String.ofList (ds.map digitChar)

/-- The whole number with the given digits. -/
def digitValue (ds : List (Fin 10)) : Nat :=
  ds.foldl (fun n (d : Fin 10) => 10 * n + d.val) 0

namespace Numeral

/-- A numeral for a whole number. -/
def ofNat (n : Nat) : Numeral :=
  ⟨false, (Nat.toDigits 10 n).map digitOf, [], none⟩

/-- A numeral for `c * 10 ^ k` with the given sign, without an exponent. -/
def ofDecimal (negative : Bool) (c : Nat) (k : Int) : Numeral :=
  let (whole, fraction) := places c k
  ⟨negative, whole.map digitOf, fraction.map digitOf, none⟩

/-- A numeral whose double precision value is the finite number `x`. -/
def ofSingle (x : Single) : Numeral :=
  let m := x.magnitude
  let shift := if m.mantissa = 0 then 0 else 52 - m.mantissa.log2
  let (c, k) := double.decimal ⟨m.mantissa * twoTo shift, m.exponent - shift⟩
  ofDecimal x.isNegative c k

/-- The text of a numeral. -/
def render (n : Numeral) : String :=
  (if n.negative then "-" else "") ++ digitText n.whole ++
    (if n.fraction.isEmpty then "" else "." ++ digitText n.fraction) ++
    match n.exponent with
    | none => ""
    | some (negative, ds) => "e" ++ (if negative then "-" else "") ++ digitText ds

/-- Neither a point nor an exponent. -/
def isWhole (n : Numeral) : Bool :=
  n.fraction.isEmpty && n.exponent.isNone

/-! ## Double precision -/

/-- Digits added to a significand as long as it stays below `2 ^ 64`, and how
    many were left over. -/
def gather : (significand : Nat) → List (Fin 10) → Nat × Nat
  | s, [] => (s, 0)
  | s, d :: ds => if 10 * s + d < twoTo 64 then gather (10 * s + d) ds else (s, ds.length + 1)

/-- The product of two numbers in double precision; `none` if it is too
    large. -/
def times (x y : Scaled) : Option Scaled :=
  let (a, b) := x.quotient
  let (c, d) := y.quotient
  double.round (a * c) (b * d)

/-- The quotient of two numbers in double precision. -/
def dividedBy (x y : Scaled) : Option Scaled :=
  let (a, b) := x.quotient
  let (c, d) := y.quotient
  double.round (a * d) (b * c)

/-- The power `10 ^ k` in double precision, for `k` up to 308. -/
def powerOfTen (k : Nat) : Scaled :=
  (double.round (tenTo k) 1).getD ⟨0, 0⟩

/-- The product `x * 10 ^ e` in double precision; exponents below `-308` are
    reached in steps of `308`. -/
def scale (x : Scaled) (e : Int) : Option Scaled :=
  if x.mantissa = 0 then some x
  else if 308 < e then none
  else if 0 ≤ e then times x (powerOfTen e.toNat)
  else if -308 ≤ e then dividedBy x (powerOfTen (-e).toNat)
  else (dividedBy x (powerOfTen 308)).bind fun y => scale y (e + 308)
termination_by (-e).toNat

/-- The significand of a numeral and the power of ten that its digits leave to
    scale it by. -/
def parts (n : Numeral) : Nat × Int :=
  let (whole, left) := gather 0 n.whole
  let (all, cut) := gather whole n.fraction
  (all, (left : Int) - (n.fraction.length - cut : Nat))

/-- The magnitude of a numeral in double precision; `none` if it is too
    large.  An exponent beyond 32 bits stands for zero or for what is too
    large. -/
def double? (n : Numeral) : Option Scaled :=
  let (s, e) := n.parts
  (Number.double.round s 1).bind fun x =>
    match n.exponent with
    | none => scale x e
    | some (negative, ds) =>
      let k := digitValue ds
      if twoTo 31 ≤ k then
        if s = 0 || negative then some ⟨0, 0⟩ else none
      else scale x (if negative then e - k else e + k)

/-- Whether the number is not too large for double precision. -/
def inRange (n : Numeral) : Bool :=
  n.double?.isSome

/-! ## Single precision -/

/-- The single precision number nearest to the double precision value. -/
def viaDouble (n : Numeral) : Single :=
  match n.double? with
  | none => Single.ofMagnitude n.negative none
  | some x => Single.ofQuotient n.negative x.quotient.1 x.quotient.2

/-- The whole number that a numeral without point and exponent stands for, if
    it fits 64 bits: up to `2 ^ 64 - 1`, and with a sign from `-2 ^ 63`.
    Negative zero is not a whole number. -/
def magnitude64? (n : Numeral) : Option Nat :=
  if !n.isWhole then none
  else
    match gather 0 n.whole with
    | (s, 0) => if !n.negative || (0 < s && s ≤ twoTo 63) then some s else none
    | _ => none

/-- The single precision number that a numeral stands for. -/
def toSingle (n : Numeral) : Single :=
  match n.magnitude64? with
  | some s => Single.ofQuotient n.negative s 1
  | none => n.viaDouble

/-! ## Messages -/

/-- What a numeral stands for, in words: a whole number that fits 64 bits, or a
    number in double precision. -/
def describe (n : Numeral) : String :=
  match n.magnitude64? with
  | some s => "integer `" ++ (if n.negative then "-" else "") ++ toString s ++ "`"
  | none => "floating point `" ++ double.compact n.negative (n.double?.getD ⟨0, 0⟩) ++ "`"

end Numeral

end Shading.Json
