/-
Binary numbers of 64 bits, as exact data.

* `Decimal`: whole digits times a power of ten, which may be negative;
* `Double`: not a number, an infinity, or a mantissa times a power of two, with a sign;
* `Double.ofQuotient`, `Double.ofDecimal`: the number nearest to a quotient or a decimal.  Of two
  that are equally near, the one with the even mantissa is taken; what is too large is infinite.
-/
namespace UniqueEvidence

/-- The decimal `digits * 10 ^ exponent`. -/
structure Decimal where
  digits : Nat
  exponent : Int
  deriving DecidableEq

/-- The exponent of the leading digit. -/
def Decimal.order (d : Decimal) : Int :=
  d.exponent + (Nat.toDigits 10 d.digits).length - 1

/-- The power of a number; exponents below zero count as zero. -/
def power (base : Nat) (e : Int) : Nat :=
  Nat.pow base e.toNat

/-- The quotient rounded to the nearest whole number; of two that are equally near, to the even
one. -/
def roundDiv (num den : Nat) : Nat :=
  let whole := num / den
  let twice := 2 * (num % den)
  if twice < den ∨ twice = den ∧ whole % 2 = 0 then whole else whole + 1

/-- A binary number of 64 bits. -/
inductive Double where
  | nan
  | infinite (negative : Bool)
  /-- The number `mantissa * 2 ^ exponent`. -/
  | finite (negative : Bool) (mantissa : Nat) (exponent : Int)
  deriving DecidableEq

namespace Double

/-- The number of bits in a mantissa. -/
def precision : Nat := 53

/-- The exponent of the smallest numbers. -/
def minExponent : Int := -1074

/-- The exponent of the largest numbers. -/
def maxExponent : Int := 971

/-- Zero, which has a sign, too. -/
def zero (negative : Bool) : Double :=
  finite negative 0 minExponent

/-- The quotient of `num / den` by `2 ^ e`. -/
def scaled (num den : Nat) (e : Int) : Nat × Nat :=
  (num * power 2 (-e), den * power 2 e)

/-- The least exponent with which a mantissa of full precision reaches the quotient.  The logarithms
leave two exponents to choose from. -/
def exponentFor (num den : Nat) : Int :=
  let low := max minExponent ((num.log2 : Int) - den.log2 - precision)
  let (n, d) := scaled num den low
  if n < power 2 precision * d then low else low + 1

/-- The number nearest to a quotient. -/
def ofQuotient (negative : Bool) (num den : Nat) : Double :=
  let e := exponentFor num den
  let (n, d) := scaled num den e
  let m := roundDiv n d
  let (m, e) := if m = power 2 precision then (power 2 (precision - 1), e + 1) else (m, e)
  if e ≤ maxExponent then finite negative m e else infinite negative

/-- The number nearest to a decimal.  Decimals that are far out of range are not scaled. -/
def ofDecimal (negative : Bool) (d : Decimal) : Double :=
  if d.digits = 0 ∨ d.order < -324 then zero negative
  else if 309 < d.order then infinite negative
  else ofQuotient negative (d.digits * power 10 d.exponent) (power 10 (-d.exponent))

end Double

end UniqueEvidence
