/-!
# JSON values

The values of the JSON interchange format as the reader hands them on. A number is kept as it was
written, because `3`, `3.0` and `-0` are told apart. A string may hold an escaped surrogate
without a partner; it then names no text.
-/

namespace Renamer

/-- A JSON value. -/
inductive Json where
  | null
  | bool (value : Bool)
  /-- A number in the form in which it was written. -/
  | number (digits : List Char)
  /-- A string; `none` where an escape names no character. -/
  | string (text : Option String)
  | array (items : List Json)
  /-- The members in the order in which they were written, repeated names included. -/
  | object (members : List (Option String × Json))
  deriving Repr, Inhabited

namespace Json

/-- The natural number that is written without sign, fraction and exponent. -/
def nat? : Json → Option Nat
  | .number digits =>
    if digits.all Char.isDigit then
      some (digits.foldl (fun n c => 10 * n + (c.toNat - '0'.toNat)) 0)
    else none
  | _ => none

/-- The truth value. -/
def bool? : Json → Option Bool
  | .bool value => some value
  | _ => none

/-- The text of a string whose escapes all name characters. -/
def string? : Json → Option String
  | .string text => text
  | _ => none

end Json
end Renamer
