/-
Reading JSON text.

* `Json.ReadError`: why a text denotes no value, with its wording;
* `Json.read`: the value a text denotes.  Blanks are space, tab and line ends; string literals hold
  no bare control characters; if a key is repeated in an object, its last value stands in the first
  one's place.  `NaN`, `Infinity` and `-Infinity` are read as numbers.  The first error from the
  left counts.

The functions work on lists of characters and give back the unread rest.  The three that read nested
values take a bound on the nesting, for which the length of the text is always enough.
-/
import UniqueEvidence.Json.Basic
import UniqueEvidence.Text.Classes

namespace UniqueEvidence

namespace Json

/-- Why a text denotes no value. -/
inductive ReadError where
  /-- It is no JSON text. -/
  | malformed
  /-- It has a whole number with too many digits. -/
  | tooLong (digits : Nat)
  deriving DecidableEq

/-- The wording of a reading error. -/
def ReadError.message : ReadError → String
  | malformed => "not a JSON text"
  | tooLong digits =>
    "Exceeds the limit (" ++ toString Text.maxDigits ++
      " digits) for integer string conversion: value has " ++
      toString digits ++ " digits; use sys.set_int_max_str_digits() to increase the limit"

/-- Whether a character may stand between tokens. -/
def isSpace (c : Char) : Bool :=
  c = ' ' || c = '\t' || c = '\n' || c = '\r'

/-- The text after leading blanks. -/
def skipSpace (cs : List Char) : List Char :=
  cs.dropWhile isSpace

/-! ### Strings -/

/-- The value of a hexadecimal digit. -/
def hexValue? (c : Char) : Option Nat :=
  if '0' ≤ c ∧ c ≤ '9' then some (c.toNat - '0'.toNat)
  else if 'a' ≤ c ∧ c ≤ 'f' then some (c.toNat - 'a'.toNat + 10)
  else if 'A' ≤ c ∧ c ≤ 'F' then some (c.toNat - 'A'.toNat + 10)
  else none

/-- The value of four hexadecimal digits. -/
def unit? (a b c d : Char) : Option Nat := do
  let a ← hexValue? a
  let b ← hexValue? b
  let c ← hexValue? c
  let d ← hexValue? d
  return ((a * 16 + b) * 16 + c) * 16 + d

/-- Whether a 16-bit unit is the first half of a surrogate pair. -/
def isHighSurrogate (n : Nat) : Bool :=
  0xd800 ≤ n && n ≤ 0xdbff

/-- Whether a 16-bit unit is the second half of a surrogate pair. -/
def isLowSurrogate (n : Nat) : Bool :=
  0xdc00 ≤ n && n ≤ 0xdfff

/-- The character of a code point; a lone surrogate has none and is replaced. -/
def charOf (n : Nat) : Char :=
  if isHighSurrogate n || isLowSurrogate n then '�' else Char.ofNat n

/-- The character an escape of one letter stands for. -/
def escaped? : Char → Option Char
  | '"' => some '"'
  | '\\' => some '\\'
  | '/' => some '/'
  | 'b' => some '\x08'
  | 'f' => some '\x0c'
  | 'n' => some '\n'
  | 'r' => some '\r'
  | 't' => some '\t'
  | _ => none

/-- The code points of a string literal, read from after its opening quote, and what follows the
literal.  Surrogates still stand apart. -/
def readUnits : List Char → Option (List Nat × List Char)
  | [] => none
  | '"' :: rest => some ([], rest)
  | '\\' :: 'u' :: a :: b :: c :: d :: rest => do
    let n ← unit? a b c d
    let (units, rest) ← readUnits rest
    return (n :: units, rest)
  | '\\' :: c :: rest => do
    let c ← escaped? c
    let (units, rest) ← readUnits rest
    return (c.toNat :: units, rest)
  | c :: rest =>
    if c = '\\' ∨ c.toNat < 0x20 then none
    else do
      let (units, rest) ← readUnits rest
      return (c.toNat :: units, rest)

/-- The characters of a sequence of code points, in which surrogate pairs are joined. -/
def joinUnits : List Nat → List Char
  | [] => []
  | [n] => [charOf n]
  | n :: m :: rest =>
    if isHighSurrogate n && isLowSurrogate m then
      Char.ofNat (0x10000 + (n - 0xd800) * 0x400 + (m - 0xdc00)) :: joinUnits rest
    else
      charOf n :: joinUnits (m :: rest)

/-- A string, read from after its opening quote. -/
def readString (cs : List Char) : Except ReadError (String × List Char) :=
  match readUnits cs with
  | some (units, rest) => .ok (String.ofList (joinUnits units), rest)
  | none => .error .malformed

/-! ### Numbers -/

/-- Whether a character is a decimal digit of ASCII. -/
def isDigit (c : Char) : Bool :=
  '0' ≤ c && c ≤ '9'

/-- The number that decimal digits denote. -/
def ofDigits (ds : List Char) : Nat :=
  ds.foldl (fun n d => n * 10 + (d.toNat - '0'.toNat)) 0

/-- The digits before a point: a single zero, or digits that do not start with one. -/
def readWhole : List Char → Except ReadError (List Char × List Char)
  | '0' :: rest => .ok (['0'], rest)
  | c :: rest =>
    if isDigit c then .ok (c :: rest.takeWhile isDigit, rest.dropWhile isDigit)
      else .error .malformed
  | [] => .error .malformed

/-- The digits after a point, if a point and digits come next. -/
def readFraction : List Char → List Char × List Char
  | '.' :: c :: rest =>
    if isDigit c then (c :: rest.takeWhile isDigit, rest.dropWhile isDigit)
      else ([], '.' :: c :: rest)
  | cs => ([], cs)

/-- An exponent, if it comes next. -/
def readExponent (cs : List Char) : Option Int × List Char :=
  match cs with
  | e :: rest =>
    if e = 'e' ∨ e = 'E' then
      let (isNegative, digits) : Bool × List Char :=
        match rest with
        | '+' :: ds => (false, ds)
        | '-' :: ds => (true, ds)
        | ds => (false, ds)
      match digits.takeWhile isDigit with
      | [] => (none, cs)
      | ds =>
        let n : Int := ofDigits ds
        (some (if isNegative then -n else n), digits.dropWhile isDigit)
    else (none, cs)
  | [] => (none, [])

/-- A whole number. -/
def wholeNumber (isNegative : Bool) (ds : List Char) : Except ReadError Json :=
  if ds.length ≤ Text.maxDigits then
    let n : Int := ofDigits ds
    .ok (int (if isNegative then -n else n))
  else
    .error (.tooLong ds.length)

/-- A number. -/
def readNumber (cs : List Char) : Except ReadError (Json × List Char) := do
  let (isNegative, unsigned) : Bool × List Char :=
    match cs with
    | '-' :: rest => (true, rest)
    | _ => (false, cs)
  let (whole, rest) ← readWhole unsigned
  let (fraction, rest) := readFraction rest
  let (exponent, rest) := readExponent rest
  if fraction.isEmpty && exponent.isNone then
    return (← wholeNumber isNegative whole, rest)
  else
    let d : Decimal := ⟨ofDigits (whole ++ fraction), exponent.getD 0 - fraction.length⟩
    return (real (.ofDecimal isNegative d), rest)

/-! ### Values -/

/-- The text after a given beginning. -/
def after? : List Char → List Char → Option (List Char)
  | [], cs => some cs
  | _, [] => none
  | p :: ps, c :: cs => if p = c then after? ps cs else none

/-- A word that is a value of its own. -/
def readWord (cs : List Char) : Option (Json × List Char) :=
  (after? "null".toList cs).map (null, ·) <|>
  (after? "true".toList cs).map (bool true, ·) <|>
  (after? "false".toList cs).map (bool false, ·) <|>
  (after? "NaN".toList cs).map (real .nan, ·) <|>
  (after? "Infinity".toList cs).map (real (.infinite false), ·) <|>
  (after? "-Infinity".toList cs).map (real (.infinite true), ·)

mutual

/-- A value, at the start of the text. -/
def readValue : Nat → List Char → Except ReadError (Json × List Char)
  | 0, _ => .error .malformed
  | depth + 1, cs =>
    match cs with
    | '"' :: rest => do
      let (s, rest) ← readString rest
      return (str s, rest)
    | '[' :: rest =>
      match skipSpace rest with
      | ']' :: rest => return (arr [], rest)
      | rest => do
        let (items, rest) ← readItems depth rest
        return (arr items, rest)
    | '\x7b' :: rest =>
      match skipSpace rest with
      | '\x7d' :: rest => return (obj [], rest)
      | rest => do
        let (members, rest) ← readMembers depth rest
        return (obj (members.foldl (fun ms (k, v) => setMember k v ms) []), rest)
    | cs =>
      match readWord cs with
      | some found => return found
      | none => readNumber cs

/-- The entries of a list up to the closing bracket; after a comma an entry must follow. -/
def readItems : Nat → List Char → Except ReadError (List Json × List Char)
  | 0, _ => .error .malformed
  | depth + 1, cs => do
    let (j, rest) ← readValue depth cs
    match skipSpace rest with
    | ']' :: rest => return ([j], rest)
    | ',' :: rest =>
      let (items, rest) ← readItems depth (skipSpace rest)
      return (j :: items, rest)
    | _ => .error .malformed

/-- The members of an object up to the closing brace; after a comma a member must follow. -/
def readMembers : Nat → List Char → Except ReadError (List (String × Json) × List Char)
  | 0, _ => .error .malformed
  | depth + 1, '"' :: cs => do
    let (key, rest) ← readString cs
    match skipSpace rest with
    | ':' :: rest =>
      let (v, rest) ← readValue depth (skipSpace rest)
      match skipSpace rest with
      | '\x7d' :: rest => return ([(key, v)], rest)
      | ',' :: rest =>
        let (members, rest) ← readMembers depth (skipSpace rest)
        return ((key, v) :: members, rest)
      | _ => .error .malformed
    | _ => .error .malformed
  | _ + 1, _ => .error .malformed

end

/-- The value a text denotes. -/
def read (text : String) : Except ReadError Json := do
  let cs := text.toList
  let (j, rest) ← readValue (cs.length + 1) (skipSpace cs)
  if (skipSpace rest).isEmpty then return j else .error .malformed

end Json

end UniqueEvidence
