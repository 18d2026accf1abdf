/-
Whole numbers as they are written in settings.

* `readInteger?`: an optional sign and decimal digits of any script, with single underscores between
  digits allowed, and blanks around the whole.
-/
import UniqueEvidence.Text.Classes

namespace UniqueEvidence.Settings

/-- Blanks that may surround a number: white space, the four information separators excepted. -/
def isPadding (c : Char) : Bool :=
  Text.isBlank c && !(0x1c ≤ c.toNat && c.toNat ≤ 0x1f)

/-- The digits of a number, with single underscores between them left out. -/
def readDigits : List Char → Option (List Nat)
  | [] => none
  | [c] => (Text.decimalValue? c).map ([·])
  | c :: '_' :: rest => do return (← Text.decimalValue? c) :: (← readDigits rest)
  | c :: rest => do return (← Text.decimalValue? c) :: (← readDigits rest)

/-- The number that digits denote, if there are not too many. -/
def readNatural? (cs : List Char) : Option Nat := do
  let digits ← readDigits cs
  guard (digits.length ≤ Text.maxDigits)
  return digits.foldl (fun n d => 10 * n + d) 0

/-- The whole number that a text denotes. -/
def readInteger? (s : String) : Option Int :=
  match ((s.toList.dropWhile isPadding).reverse.dropWhile isPadding).reverse with
  | '+' :: digits => (readNatural? digits).map Int.ofNat
  | '-' :: digits => (readNatural? digits).map fun n => -Int.ofNat n
  | digits => (readNatural? digits).map Int.ofNat

end UniqueEvidence.Settings
