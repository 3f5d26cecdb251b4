import Renamer.Json.Value

/-!
# Reading JSON

`Json.parse` reads one value and white space around it, by the grammar of the interchange format:
no leading zeros, no trailing commas, no control characters inside strings. Every function takes
the rest of the text and answers what is left of it, or `none` where the text does not fit.

Values stand in one another no deeper than the text is long, which bounds the recursion.
-/

namespace Renamer
namespace Json

/-! ## Characters -/

/-- White space between the tokens. -/
def isSpace (c : Char) : Bool := c == ' ' || c == '\t' || c == '\n' || c == '\r'

/-- The text from its next token on. -/
def skipSpace (s : List Char) : List Char := s.dropWhile isSpace

/-- What follows the token `token`. -/
def expect (token s : List Char) : Option (List Char) :=
  if token.isPrefixOf s then some (s.drop token.length) else none

/-- The value of a hexadecimal digit. -/
def hexValue (c : Char) : Option Nat :=
  if c.isDigit then some (c.toNat - '0'.toNat)
  else if 'a' ≤ c && c ≤ 'f' then some (c.toNat - 'a'.toNat + 10)
  else if 'A' ≤ c && c ≤ 'F' then some (c.toNat - 'A'.toNat + 10)
  else none

/-! ## Strings -/

/-- One unit of a string: a character, or a surrogate that was escaped. -/
inductive StringUnit where
  | char (c : Char)
  | surrogate (code : Nat)
  deriving DecidableEq, Repr

/-- The unit with the code `code`, written with four hexadecimal digits. -/
def StringUnit.ofCode (code : Nat) : StringUnit :=
  if 0xD800 ≤ code && code ≤ 0xDFFF then .surrogate code else .char (Char.ofNat code)

/-- The character that a letter after a backslash stands for. -/
def escaped (c : Char) : Option Char :=
  match c with
  | '"' => some '"'
  | '\\' => some '\\'
  | '/' => some '/'
  | 'b' => some '\x08'
  | 'f' => some '\x0c'
  | 'n' => some '\n'
  | 'r' => some '\r'
  | 't' => some '\t'
  | _ => none

/-- The units of a string up to its closing quote, and what follows that. -/
def stringUnits : List Char → Option (List StringUnit × List Char)
  | [] => none
  | '"' :: rest => some ([], rest)
  | '\\' :: 'u' :: a :: b :: c :: d :: rest => do
    let code := (((← hexValue a) * 16 + (← hexValue b)) * 16 + (← hexValue c)) * 16 + (← hexValue d)
    let (units, rest) ← stringUnits rest
    return (.ofCode code :: units, rest)
  | '\\' :: c :: rest => do
    let c ← escaped c
    let (units, rest) ← stringUnits rest
    return (.char c :: units, rest)
  | c :: rest => do
    if c.toNat < 0x20 then none
    else
      let (units, rest) ← stringUnits rest
      return (.char c :: units, rest)

/-- The text of the units: a high surrogate and the low one right after it form a character, and
no other surrogate forms one. -/
def unitsText : List StringUnit → Option (List Char)
  | [] => some []
  | .char c :: rest => (unitsText rest).map (c :: ·)
  | .surrogate high :: .surrogate low :: rest =>
    if high < 0xDC00 && 0xDC00 ≤ low then
      (unitsText rest).map (Char.ofNat (0x10000 + (high - 0xD800) * 0x400 + (low - 0xDC00)) :: ·)
    else none
  | .surrogate _ :: _ => none

/-- A string and what follows it. -/
def parseString (s : List Char) : Option (Option String × List Char) := do
  let (units, rest) ← stringUnits (← expect ['"'] s)
  return ((unitsText units).map String.ofList, rest)

/-! ## Numbers -/

/-- One or more digits, and what follows them. -/
def digits1 (s : List Char) : Option (List Char × List Char) :=
  let digits := s.takeWhile Char.isDigit
  if digits.isEmpty then none else some (digits, s.drop digits.length)

/-- The digits before the point: a lone zero, or digits that do not start with one. -/
def integerPart (s : List Char) : Option (List Char × List Char) := do
  let (digits, rest) ← digits1 s
  if digits.head? == some '0' && digits.length > 1 then none else some (digits, rest)

/-- A point and the digits after it, if there is a point. -/
def fractionPart : List Char → Option (List Char × List Char)
  | '.' :: rest => do
    let (digits, rest) ← digits1 rest
    return ('.' :: digits, rest)
  | s => some ([], s)

/-- An exponent, if there is one. -/
def exponentPart : List Char → Option (List Char × List Char)
  | [] => some ([], [])
  | e :: rest =>
    if e == 'e' || e == 'E' then do
      let (sign, rest) := match rest with
        | '+' :: rest => (['+'], rest)
        | '-' :: rest => (['-'], rest)
        | _ => ([], rest)
      let (digits, rest) ← digits1 rest
      return (e :: sign ++ digits, rest)
    else some ([], e :: rest)

/-- A number as it is written, and what follows it. -/
def parseNumber (s : List Char) : Option (List Char × List Char) := do
  let (sign, s) := match s with
    | '-' :: rest => (['-'], rest)
    | _ => ([], s)
  let (whole, s) ← integerPart s
  let (fraction, s) ← fractionPart s
  let (exponent, s) ← exponentPart s
  return (sign ++ whole ++ fraction ++ exponent, s)

/-! ## Values -/

/-- Items with commas between them up to the closing character, where `item` reads one item. At
least one item is to come; there are no more than `count`. -/
def parseItems {α : Type} (item : List Char → Option (α × List Char)) (close : Char) :
    Nat → List Char → Option (List α × List Char)
  | 0, _ => none
  | count + 1, s => do
    let (x, s) ← item s
    match skipSpace s with
    | [] => none
    | c :: rest =>
      if c == close then some ([x], rest)
      else if c == ',' then do
        let (xs, rest) ← parseItems item close count rest
        return (x :: xs, rest)
      else none

/-- No items at all, or items as `parseItems` reads them. -/
def parseSequence {α : Type} (item : List Char → Option (α × List Char)) (close : Char)
    (s : List Char) : Option (List α × List Char) :=
  match expect [close] (skipSpace s) with
  | some rest => some ([], rest)
  | none => parseItems item close s.length s

/-- A name, a colon and a value, where `value` reads the value. -/
def parseMember (value : List Char → Option (Json × List Char)) (s : List Char) :
    Option ((Option String × Json) × List Char) := do
  let (name, s) ← parseString (skipSpace s)
  let s ← expect [':'] (skipSpace s)
  let (v, s) ← value s
  return ((name, v), s)

/-- A value with white space before it, in which values stand in one another to no more than
`depth`. -/
def parseValue : Nat → List Char → Option (Json × List Char)
  | 0, _ => none
  | depth + 1, s =>
    match skipSpace s with
    | [] => none
    | '\x7b' :: rest => do
      let (members, rest) ← parseSequence (parseMember (parseValue depth)) '\x7d' rest
      return (.object members, rest)
    | '[' :: rest => do
      let (items, rest) ← parseSequence (parseValue depth) ']' rest
      return (.array items, rest)
    | '"' :: rest => do
      let (text, rest) ← parseString ('"' :: rest)
      return (.string text, rest)
    | 'n' :: rest => do return (.null, ← expect "ull".toList rest)
    | 't' :: rest => do return (.bool true, ← expect "rue".toList rest)
    | 'f' :: rest => do return (.bool false, ← expect "alse".toList rest)
    | s => do
      let (digits, rest) ← parseNumber s
      return (.number digits, rest)

/-- The value that a text is. Nothing but white space may follow it. -/
def parse (text : String) : Option Json := do
  let s := text.toList
  let (value, rest) ← parseValue (s.length + 1) s
  if (skipSpace rest).isEmpty then some value else none

end Json
end Renamer
