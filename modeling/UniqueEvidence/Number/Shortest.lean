/-
The decimal text of a binary number: the fewest digits that are read as the number again, and of the
texts with so many digits the nearest.

* `Double.exact`: the number as a decimal;
* `Double.closest?`: the nearest multiple of a power of ten that is read as the number;
* `Double.shortest`: the same for the largest power of ten that has one;
* `Double.render`: the text.  From `0.0001` on and below `10 ^ 16` all digits are written out, and
  otherwise an exponent follows the digits.
-/
import UniqueEvidence.Number.Double

namespace UniqueEvidence

namespace Decimal

/-- Digits with a point after the first `point` of them. -/
def positional (ds : List Char) (point : Int) : List Char :=
  if point ≤ 0 then
    '0' :: '.' :: List.replicate (-point).toNat '0' ++ ds
  else
    let padded := ds ++ List.replicate (point.toNat - ds.length) '0'
    let fraction := padded.drop point.toNat
    padded.take point.toNat ++ '.' :: (if fraction.isEmpty then ['0'] else fraction)

/-- Digits with a point after the first one, and an exponent of at least two digits. -/
def scientific (ds : List Char) (e : Int) : List Char :=
  let fraction := ds.drop 1
  let exponent := Nat.toDigits 10 e.natAbs
  ds.take 1 ++ (if fraction.isEmpty then [] else '.' :: fraction) ++
    'e' :: (if e < 0 then '-' else '+') :: List.replicate (2 - exponent.length) '0' ++ exponent

/-- The text of a decimal that is not zero. -/
def render (d : Decimal) : List Char :=
  let ds := ((Nat.toDigits 10 d.digits).reverse.dropWhile (· == '0')).reverse
  if -4 ≤ d.order ∧ d.order < 16 then positional ds (d.order + 1) else scientific ds d.order

end Decimal

namespace Double

/-- The number `m * 2 ^ e` as a decimal. -/
def exact (m : Nat) (e : Int) : Decimal :=
  if 0 ≤ e then ⟨m * power 2 e, 0⟩ else ⟨m * power 5 (-e), e⟩

/-- The multiple of `10 ^ p` nearest to `m * 2 ^ e` among those that are read as that number: the
ones up to half way to the next number below and above, where half way counts for even mantissas.
Below a power of two the numbers are twice as dense. -/
def closest? (m : Nat) (e p : Int) : Option Nat :=
  let quarter := power 2 (e - 2) * power 10 (-p)
  let unit := power 2 (2 - e) * power 10 p
  let below := if m = power 2 (precision - 1) ∧ minExponent < e then 1 else 2
  let isRead (k : Nat) : Bool :=
    if m % 2 = 0 then (4 * m - below) * quarter ≤ k * unit && k * unit ≤ (4 * m + 2) * quarter
    else (4 * m - below) * quarter < k * unit && k * unit < (4 * m + 2) * quarter
  let value := 4 * m * quarter
  [roundDiv value unit, value / unit, value / unit + 1].find? isRead

/-- The number `m * 2 ^ e` with the fewest digits.  Seventeen are always enough. -/
def shortest (m : Nat) (e : Int) : Decimal :=
  let d := exact m e
  let found := (List.range 17).findSome? fun (i : Nat) =>
    let p := d.order - i
    (closest? m e p).map (Decimal.mk · p)
  found.getD d

/-- The text of a number. -/
def render : Double → String
  | nan => "nan"
  | infinite negative => if negative then "-inf" else "inf"
  | finite negative m e =>
    let text := if m = 0 then ['0', '.', '0'] else (shortest m e).render
    String.ofList (if negative then '-' :: text else text)

end Double

end UniqueEvidence
