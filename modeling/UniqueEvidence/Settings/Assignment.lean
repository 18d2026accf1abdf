/-
Files of variables: statements `NAME=value`, `export NAME=value` or just `NAME`, and comments.

* `Assignment`: a name with its value, if it is given one;
* `readAssignments`: the assignments of a file, in order.  A value stands in quotes, which may span
  lines, or ends with its line or before a comment.  A malformed statement is skipped to the end of
  its line.
-/
import UniqueEvidence.Text.Classes

namespace UniqueEvidence.Settings

/-- A name, and the value it is given. -/
structure Assignment where
  name : String
  value : Option String
  deriving DecidableEq

/-! ### Lines -/

/-- Text with every end of line written as a line feed. -/
def uniformLines : List Char → List Char
  | [] => []
  | '\r' :: '\n' :: rest => '\n' :: uniformLines rest
  | '\r' :: rest => '\n' :: uniformLines rest
  | c :: rest => c :: uniformLines rest

/-- White space within a line. -/
def isGap (c : Char) : Bool :=
  Text.isBlank c && c != '\n'

/-- What follows the white space within a line. -/
def afterGap (cs : List Char) : List Char :=
  cs.dropWhile isGap

/-- The rest of a line. -/
def lineOf (cs : List Char) : List Char :=
  cs.takeWhile (· != '\n')

/-- What follows the rest of a line. -/
def afterLine (cs : List Char) : List Char :=
  cs.dropWhile (· != '\n')

/-! ### Parts of a statement -/

/-- A step in reading a statement: a result with the text after it, or the text at which it is
malformed. -/
abbrev Reading (α : Type) := Except (List Char) (α × List Char)

/-- What follows the word `export`, if the text starts with it. -/
def afterExport (cs : List Char) : List Char :=
  match cs with
  | 'e' :: 'x' :: 'p' :: 'o' :: 'r' :: 't' :: c :: rest => if isGap c then afterGap rest else cs
  | _ => cs

/-- A nonempty run of characters as text. -/
def nonempty (p : Char → Bool) (cs : List Char) : Reading String :=
  match cs.takeWhile p with
  | [] => .error cs
  | run => .ok (String.ofList run, cs.dropWhile p)

/-- The name that a statement starts with, possibly in single quotes.  A comment has none. -/
def readName (cs : List Char) : Reading (Option String) :=
  match cs with
  | '#' :: _ => .ok (none, cs)
  | '\'' :: inner =>
    match nonempty (· != '\'') inner with
    | .ok (name, '\'' :: rest) => .ok (some name, rest)
    | _ => .error cs
  | _ => (nonempty (fun c => c != '=' && c != '#' && !Text.isBlank c) cs).map fun (name, rest) =>
    (some name, rest)

/-- The text up to the closing quote, and what follows it.  A quote after a backslash does not
close, unless no other quote follows. -/
def untilQuote? (quote : Char) : List Char → Option (List Char × List Char)
  | [] => none
  | '\\' :: c :: rest =>
    if c = quote then
      (untilQuote? quote rest).map (fun (inner, rest) => ('\\' :: c :: inner, rest)) <|>
        some (['\\'], rest)
    else (untilQuote? quote (c :: rest)).map fun (inner, rest) => ('\\' :: inner, rest)
  | c :: rest =>
    if c = quote then some ([], rest) else (untilQuote? quote rest).map fun (inner, rest) =>
      (c :: inner, rest)

/-- The character that a backslash and a letter stand for in single quotes. -/
def singleEscape? : Char → Option Char
  | '\\' => some '\\'
  | '\'' => some '\''
  | _ => none

/-- The character that a backslash and a letter stand for in double quotes. -/
def doubleEscape? : Char → Option Char
  | '\\' => some '\\'
  | '\'' => some '\''
  | '"' => some '"'
  | 'a' => some '\x07'
  | 'b' => some '\x08'
  | 'f' => some '\x0c'
  | 'n' => some '\n'
  | 'r' => some '\r'
  | 't' => some '\t'
  | 'v' => some '\x0b'
  | _ => none

/-- Text with its escapes replaced.  A backslash before any other character stands for itself. -/
def unescape (escape? : Char → Option Char) : List Char → List Char
  | '\\' :: c :: rest =>
    match escape? c with
    | some d => d :: unescape escape? rest
    | none => '\\' :: unescape escape? (c :: rest)
  | c :: rest => c :: unescape escape? rest
  | [] => []

/-- A value without the comment that follows it.  A comment is set off by blanks. -/
def dropComment : List Char → List Char
  | [] => []
  | c :: rest =>
    if Text.isBlank c && (rest.dropWhile Text.isBlank).head? = some '#' then []
      else c :: dropComment rest

/-- A value in the given quotes, of which the first has been read. -/
def readQuoted (quote : Char) (escape? : Char → Option Char) (inner : List Char) : Reading String :=
  match untilQuote? quote inner with
  | some (value, rest) => .ok (String.ofList (unescape escape? value), rest)
  | none => .error (quote :: inner)

/-- The value of a statement. -/
def readValue (cs : List Char) : Reading String :=
  match cs with
  | '\'' :: inner => readQuoted '\'' singleEscape? inner
  | '"' :: inner => readQuoted '"' doubleEscape? inner
  | _ => .ok (String.ofList (Text.trimRight (dropComment (lineOf cs))), afterLine cs)

/-- The value after the equals sign, if there is one. -/
def readAssigned (cs : List Char) : Reading (Option String) :=
  match cs with
  | '=' :: rest => (readValue (afterGap rest)).map fun (value, rest) => (some value, rest)
  | _ => .ok (none, cs)

/-- What follows the end of a statement, which is a comment or nothing. -/
def endStatement (cs : List Char) : Except (List Char) (List Char) :=
  match afterGap cs with
  | [] => .ok []
  | '\n' :: rest => .ok rest
  | '#' :: rest => .ok ((afterLine rest).drop 1)
  | _ => .error cs

/-! ### Statements -/

/-- A statement that starts with no blank. -/
def readStatement (cs : List Char) : Except (List Char) (Option Assignment × List Char) := do
  let (name, rest) ← readName (afterExport cs)
  let (value, rest) ← readAssigned (afterGap rest)
  return (name.map fun x => ⟨x, value⟩, ← endStatement rest)

/-- The assignments among the first statements, at most so many. -/
def assignmentsWithin : Nat → List Char → List Assignment
  | 0, _ => []
  | count + 1, cs =>
    match cs.dropWhile Text.isBlank with
    | [] => []
    | start =>
      match readStatement start with
      | .ok (a, rest) => a.toList ++ assignmentsWithin count rest
      | .error rest => assignmentsWithin count ((afterLine rest).drop 1)

/-- The assignments of a file, in order.  It has no more statements than characters. -/
def readAssignments (text : String) : List Assignment :=
  let cs := uniformLines text.toList
  assignmentsWithin cs.length cs

end UniqueEvidence.Settings
